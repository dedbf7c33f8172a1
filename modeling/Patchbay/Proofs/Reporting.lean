import Mathlib.Tactic.IntervalCases
import Patchbay.Proofs.Propagation

/-!
# Failures are reported once

Where behaviours hand errors on, an error ends its trigger, and observers are told of it once: by the turn
that ends the invocation where it arose, which is the innermost one. That turn also lets the node show the
error. On the way up through any number of inputs and control flow the failure stays as it was reported, and
it is the error of the result.

That every error arises in an invocation takes a graph whose nodes have registered kinds, and that it is told
takes behaviours whose own errors are new. A trigger on a node without a kind fails before any invocation, and
an error that observers have been told of before is not told again.

Contents:
* `Engine.errorsOf`: the errors of a trigger that observers were told of.
* `Engine.Turn.raises?`, `Engine.Turn.reports?`: the error that a turn raises in a trigger, and the one that
  it reports.
* `Calm`, `Troubled`: what has become of a trigger up to some state of a run.
* `Untold`: a trigger that fails while observers are told of no error.

Results:
* `errorsOf_step`: what a step adds to the errors of a trigger.
* `failure_reported_once`: the result of a trigger, its errors and its marks.
* `failure_unreported`: a trigger on a node without a registered kind, one with an error that is not new, and one with an
  error without a text.
-/

namespace Patchbay

/-! ## The errors of a trigger -/

/-- Whether observers are told of an error. -/
def Notice.isError : Notice → Bool
  | .nodeErrored _ _ _ _ => true
  | _ => false

/-- The errors of a trigger that observers were told of, oldest first. -/
def Engine.errorsOf (e : Engine) (T : Nat) : List Notice := (e.heard T).filter Notice.isError

namespace Engine.Turn

/-- The invocation in a trigger that the turn of the strand under way ends with an error, and the error. -/
def raises? (t : Turn) (T : Nat) : Option (Invocation × Raised) :=
  match t.next with
  | some (s, sig) => if s.scope.trigger = T then s.raising? sig else none
  | none => none

/-- The error in a trigger that the turn of the strand under way reports, and where. -/
def reports? (t : Turn) (T : Nat) : Option (Invocation × Failure) :=
  match t.next with
  | some (s, sig) => if s.scope.trigger = T then s.reports? sig else none
  | none => none

variable {t : Turn} {T : Nat}

theorem raises?_of_next {s : Strand} {sig : Signal} (hn : t.next = some (s, sig)) (hs : s.scope.trigger = T) :
    t.raises? T = s.raising? sig := by
  simp only [raises?, hn, hs, if_true]

theorem reports?_of_next {s : Strand} {sig : Signal} (hn : t.next = some (s, sig)) (hs : s.scope.trigger = T) :
    t.reports? T = s.reports? sig := by
  simp only [reports?, hn, hs, if_true]

/-- Only the turn of a strand in the trigger raises an error there. -/
theorem raises?_of_ne (hs : ∀ s sig, t.next = some (s, sig) → s.scope.trigger ≠ T) :
    t.raises? T = none := by
  unfold raises?
  split
  · next hn => rw [if_neg (hs _ _ hn)]
  · rfl

/-- What is raised for the first time is reported. -/
theorem reports?_eq (t : Turn) (T : Nat) : t.reports? T =
    ((t.raises? T).filter fun x => !x.2.silent).map fun x => (x.1, x.2.atInvocation T x.1) := by
  unfold reports? raises?
  split
  · split
    · next hs => rw [Strand.reports?, hs]
    · rfl
  · rfl

end Engine.Turn

theorem isError_of_mem_progress {e : Engine} {s : Strand} {sig : Signal} {n : Notice}
    (h : n ∈ e.progress s sig) : n.isError = false := by
  unfold Engine.progress at h
  repeat' split at h
  all_goals simp at h
  all_goals first | (rw [h]; rfl) | (rcases h with rfl | rfl <;> rfl)

/-- A step adds to the errors of a trigger the one that it reports. -/
theorem errorsOf_step {t t' : Engine.Turn} (hs : Step t t') (T : Nat) :
    t'.engine.errorsOf T = t.engine.errorsOf T ++ (t.reports? T).toList.map fun x =>
      .nodeErrored T x.1.node x.2.family.name x.2.message := by
  rw [Engine.errorsOf, heard_step hs, List.filter_append, Engine.errorsOf]
  refine congrArg _ ?_
  cases hn : t.next with
  | none =>
    rw [Engine.Turn.toldOf_of_none hn, Engine.Turn.reports?, hn]
    rfl
  | some x =>
    obtain ⟨s, sig⟩ := x
    have hprogress : ((t.engine.progress s sig).filter fun n => n.trigger? == some T).filter Notice.isError = [] := by
      rw [List.filter_eq_nil_iff]
      intro n hmem
      rw [isError_of_mem_progress (List.mem_of_mem_filter hmem)]
      exact Bool.false_ne_true
    rw [Engine.Turn.toldOf, Engine.Turn.told_of_next hn, Engine.told, List.filter_append, List.filter_append,
      hprogress, List.nil_append, Engine.Turn.reports?, hn]
    dsimp only
    split
    · next hT =>
      cases s.reports? sig with
      | none => rfl
      | some y => simp [Notice.trigger?, Notice.isError, hT]
    · next hT =>
      cases s.reports? sig with
      | none => rfl
      | some y => simp [Notice.trigger?, hT]

/-! ## Marks -/

/-- Whether a node shows an error that it did not show before. -/
def Graph.ShowsNew (g g' : Graph) (x : Node) (m : String) : Prop :=
  x ∈ g'.nodes ∧ x.error = some m ∧ ∀ y ∈ g.nodes, y.serial = x.serial → y.error ≠ some m

/-- Whether the turn under way is of a strand in a trigger. -/
def Engine.Turn.In (t : Engine.Turn) (T : Nat) : Prop := ∃ s sig, t.next = some (s, sig) ∧ s.scope.trigger = T

/-- What a turn in a trigger lets a node show is the error that it reports. -/
theorem Graph.ShowsNew.reports? {t t' : Engine.Turn} (hs : Step t t') {T : Nat} (hin : t.In T) {x : Node}
    {m : String} (h : t.engine.graph.ShowsNew t'.engine.graph x m) :
    ∃ i f, t.reports? T = some (i, f) ∧ x.serial = i.serial ∧ m = f.message := by
  obtain ⟨hx, hm, hnew⟩ := h
  rcases (Engine.Turn.tells_step hs).errors x hx m hm with ⟨y, hy, hserial, herr⟩ | ⟨s, sig, hn, i, f, hr, hmark⟩
  · exact absurd herr (hnew y hy hserial)
  · obtain ⟨s', sig', hn', hT⟩ := hin
    obtain ⟨rfl, rfl⟩ := Prod.mk.inj (Option.some.inj (hn.symm.trans hn'))
    exact ⟨i, f, (Engine.Turn.reports?_of_next hn hT).trans hr, hmark⟩

/-- A turn that raises an error ends the invocation with it, after telling observers that it has started. -/
theorem Engine.turn_of_raising {e : Engine} {s : Strand} {sig : Signal} {i : Invocation} {err : Raised}
    (hr : s.raising? sig = some (i, err)) : ∃ (e₁ : Engine) (s₁ : Strand), e₁.graph = e.graph ∧
      s₁.scope = s.scope ∧ e.turn s sig = e₁.failInvocation s₁ i err := by
  -- an invocation raises where it has no behaviour, where its script fails, and where it names no output to leave by
  obtain ⟨id, sc, frames⟩ := s
  cases sig with
  | call c =>
    cases c with
    | invoke j =>
      simp only [Strand.raising?] at hr
      split at hr
      · next hb =>
        obtain ⟨rfl, rfl⟩ := Prod.mk.inj (Option.some.inj hr)
        refine ⟨e.emitStarted sc j, ⟨id, sc, frames⟩, rfl, rfl, ?_⟩
        show e.invoke _ j = _
        simp only [Engine.invoke, Option.isNone_iff_eq_none.mp hb]
      · cases hr
    | behave j script =>
      cases script with
      | fail err' =>
        obtain ⟨rfl, rfl⟩ := Prod.mk.inj (Option.some.inj hr)
        exact ⟨e, ⟨id, sc, frames⟩, rfl, rfl, rfl⟩
      | again state =>
        simp only [Strand.raising?] at hr
        split at hr
        · next hb =>
          obtain ⟨rfl, rfl⟩ := Prod.mk.inj (Option.some.inj hr)
          refine ⟨e, ⟨id, sc, frames⟩, rfl, rfl, ?_⟩
          show e.behave _ j (.again state) = _
          simp only [Engine.behave, Option.isNone_iff_eq_none.mp hb]
        · cases hr
      | _ => cases hr
    | _ => cases hr
  | back r =>
    cases frames with
    | nil => cases hr
    | cons f frames =>
      cases f with
      | walk agenda =>
        cases r with
        | invoked v j =>
          cases v with
          | str port =>
            simp only [Strand.raising?, Result.astray?] at hr
            split at hr
            · next hb =>
              obtain ⟨rfl, rfl⟩ := Prod.mk.inj (Option.some.inj hr)
              refine ⟨e, ⟨id, sc, frames⟩, rfl, rfl, ?_⟩
              show e.continueFrom _ j (.str port) agenda = _
              simp only [Engine.continueFrom, Option.isNone_iff_eq_none.mp hb]
              rfl
            · cases hr
          | _ => cases hr
        | _ => cases hr
      | _ => cases hr
  | raise err' => cases hr

/-- The turn that reports an error lets the node show it, and changes nothing else in the graph. -/
theorem Engine.graph_turn_of_raising {e : Engine} {s : Strand} {sig : Signal} {i : Invocation} {err : Raised}
    (hr : s.raising? sig = some (i, err)) (herr : err.silent = false) :
    (e.turn s sig).engine.graph.nodes = e.graph.nodes.map fun n => if n.serial == i.serial then
      { n with error := some (err.atInvocation s.scope.trigger i).message } else n := by
  obtain ⟨e₁, s₁, hg, hs, hturn⟩ := e.turn_of_raising hr
  rw [hturn, failInvocation_eq, herr, hs]
  show e₁.graph.nodes.map _ = e.graph.nodes.map _
  rw [hg]

/-- The node of an invocation shows the error that is reported there. -/
theorem Engine.error_turn_of_raising {e : Engine} {p : Program} (hp : e.program = p) {s : Strand} {sig : Signal}
    {i : Invocation} {err : Raised} (hr : s.raising? sig = some (i, err)) (herr : err.silent = false)
    (hi : p.Runs i) : ∃ x, (e.turn s sig).engine.graph.node? i.node = some x ∧ x.serial = i.serial ∧
      x.error = some (err.atInvocation s.scope.trigger i).message := by
  obtain ⟨n, hn, hserial⟩ := hi
  rcases e.nodeWithKind_cases hp i.node with ⟨err, -, herr⟩ | ⟨x, k, hx, hbare⟩
  · rw [herr] at hn
    cases hn
  · obtain ⟨rfl, -⟩ := Prod.mk.inj (Except.ok.inj (hn.symm.trans hbare))
    rw [Graph.node?, graph_turn_of_raising hr herr, List.find?_map]
    have hfind : e.graph.nodes.find? ((fun m : Node => m.id == i.node) ∘ fun m : Node =>
        if m.serial == i.serial then
          { m with error := some (err.atInvocation s.scope.trigger i).message } else m) = some x := by
      refine Eq.trans ?_ (node?_of_nodeWithKind hx)
      refine congrArg (fun q => e.graph.nodes.find? q) (funext fun m => ?_)
      dsimp only [Function.comp_apply]
      split <;> rfl
    have hmark : (x.serial == i.serial) = true := beq_iff_eq.mpr hserial
    rw [hfind, Option.map_some, hmark]
    exact ⟨_, rfl, hserial, rfl⟩

/-! ## A trigger so far -/

/-- Outside triggers no invocation ends. -/
theorem Strand.raising?_of_outer {s : Strand} {sig : Signal} (hf : ∀ f ∈ s.frames, f.Outer) (hsig : sig.Outer) :
    s.raising? sig = none := by
  obtain ⟨id, sc, frames⟩ := s
  cases sig with
  | call c =>
    cases c with
    | trigger | run | request => rfl
    | _ => exact hsig.elim
  | back r =>
    cases frames with
    | nil => rfl
    | cons f frames =>
      have hout : f.Outer := hf f List.mem_cons_self
      cases f <;> first | exact hout.elim | rfl
  | raise err => rfl

/-- A trigger in which no invocation has ended with an error. -/
structure Calm (p : Program) (T : Nat) (t : Engine.Turn) : Prop where
  errors : t.engine.errorsOf T = []
  during : During T (fun x => Clean p x.1.frames x.2) t

/-- A trigger in which a failure was reported, and is on its way up. -/
structure Troubled (p : Program) (T : Nat) (i : Invocation) (f : Failure) (t : Engine.Turn) : Prop where
  errors : t.engine.errorsOf T = [.nodeErrored T i.node f.family.name f.message]
  during : During T (fun x => Failing p f x.1.frames x.2) t

section Steps

variable {lo : Nat → Dependency → Nat} {L : Ledger} {t t' : Engine.Turn} {p : Program} {T : Nat}

theorem Engine.Turn.raises?_of_none (hn : t.next = none) : t.raises? T = none :=
  raises?_of_ne fun _ _ hsome => nomatch hn.symm.trans hsome

/-- A strand that is done with a trigger raises nothing there. -/
theorem Orderly.raises?_of_outer (h : Orderly lo L t) {s : Strand} {sig : Signal} (hn : t.next = some (s, sig))
    (hs : s.scope.trigger = T) (hf : ∀ f ∈ s.frames, f.Outer) : t.raises? T = none := by
  rw [Engine.Turn.raises?_of_next hn hs]
  have hsits := (h.placed _ (Engine.Turn.mem_population_of_next hn)).sits
  exact Strand.raising?_of_outer hf (hsits.outer_of_frames hf)

/-- What has been reported before is not reported again. -/
theorem Engine.Turn.reports?_eq_none (h : ∀ i err, t.raises? T = some (i, err) → err.silent = true) :
    t.reports? T = none := by
  rw [reports?_eq]
  cases hr : t.raises? T with
  | none => rfl
  | some x =>
    obtain ⟨i, err⟩ := x
    simp [h i err hr]

theorem errorsOf_eq_of_reports?_none (hs : Step t t') (hr : t.reports? T = none) :
    t'.engine.errorsOf T = t.engine.errorsOf T := by
  rw [errorsOf_step hs, hr]
  exact List.append_nil _

/-- A step in a calm trigger: it stays calm, or an invocation ends with a new error, which is reported. -/
theorem Calm.step (h : Orderly lo L t) (hT : T ≠ 0) (hknown : T < t.engine.nextTrigger)
    (hp : t.engine.program = p) (ha : p.Anchored) (hh : p.HandsOn) (hs : Step t t') (hc : Calm p T t) :
    (t.raises? T = none ∧ Calm p T t') ∨ ∃ i err, t.raises? T = some (i, err) ∧ err.silent = false ∧
      p.Runs i ∧ Troubled p T i (err.reportedAt T i) t' := by
  have hquiet : t.raises? T = none → During T (fun x => Clean p x.1.frames x.2) t' →
      t.raises? T = none ∧ Calm p T t' := by
    intro hr hd
    have hnone : t.reports? T = none := by
      rw [Engine.Turn.reports?_eq, hr]
      rfl
    exact ⟨hr, (errorsOf_eq_of_reports?_none hs hnone).trans hc.errors, hd⟩
  cases hn : t.next with
  | none =>
    refine .inl (hquiet (Engine.Turn.raises?_of_none hn) ?_)
    exact hc.during.idle hT hs hn fun s q e hclean => hclean.unpark e
  | some x =>
    obtain ⟨s, sig⟩ := x
    have hmem := Engine.Turn.mem_population_of_next hn
    -- only the strand of the trigger itself can end its calm
    by_cases hsT : s.scope.trigger = T
    · rcases hc.during _ hmem hsT with hf | hclean
      · refine .inl (hquiet (h.raises?_of_outer hn hsT hf) ?_)
        rw [hs.eq_turn hn]
        exact .outer h hT hknown hn hsT hf
      · have hraises := Engine.Turn.raises?_of_next hn hsT
        have hstays := hclean.turn hp ha hh
        cases hr : s.raising? sig with
        | none =>
          rw [hr] at hstays
          refine .inl (hquiet (hraises.trans hr) ?_)
          rw [hs.eq_turn hn]
          exact .own h hT hn hsT hstays
        | some y =>
          obtain ⟨i, err⟩ := y
          rw [hr, hsT] at hstays
          obtain ⟨herr, hi⟩ := hclean.raising hr
          refine .inr ⟨i, err, hraises.trans hr, herr, hi, ?_, ?_⟩
          · rw [errorsOf_step hs, hc.errors, Engine.Turn.reports?_eq, hraises, hr]
            simp only [Option.filter_some, herr, Bool.not_false, if_true, Option.map_some, Option.toList_some,
              List.map_cons, List.map_nil, List.nil_append]
            rfl
          · rw [hs.eq_turn hn]
            exact .own h hT hn hsT hstays
    · refine .inl (hquiet (Engine.Turn.raises?_of_ne ?_) ?_)
      · intro s' sig' hn'
        obtain ⟨rfl, rfl⟩ := Prod.mk.inj (Option.some.inj (hn.symm.trans hn'))
        exact hsT
      · rw [hs.eq_turn hn]
        exact .other h hT hknown hn hsT hc.during

/-- A step in a trigger that fails: what is raised is the failure that was reported. -/
theorem Troubled.step (h : Orderly lo L t) (hT : T ≠ 0) (hknown : T < t.engine.nextTrigger) {i : Invocation}
    {f : Failure} (hf : f.reported = true) (hs : Step t t') (hc : Troubled p T i f t) :
    (∀ j err, t.raises? T = some (j, err) → err = .failure f) ∧ Troubled p T i f t' := by
  have hraised : ∀ j err, t.raises? T = some (j, err) → err = .failure f := by
    intro j err hr
    cases hn : t.next with
    | none =>
      rw [Engine.Turn.raises?_of_none hn] at hr
      cases hr
    | some x =>
      obtain ⟨s, sig⟩ := x
      by_cases hsT : s.scope.trigger = T
      · rcases hc.during _ (Engine.Turn.mem_population_of_next hn) hsT with hout | hfailing
        · rw [h.raises?_of_outer hn hsT hout] at hr
          cases hr
        · exact hfailing.raising ((Engine.Turn.raises?_of_next hn hsT).symm.trans hr)
      · rw [Engine.Turn.raises?, hn] at hr
        simp only [hsT, if_false] at hr
        cases hr
  have hnone : t.reports? T = none := by
    refine Engine.Turn.reports?_eq_none fun j err hr => ?_
    rw [hraised j err hr]
    exact hf
  refine ⟨hraised, (errorsOf_eq_of_reports?_none hs hnone).trans hc.errors, ?_⟩
  refine hc.during.step h hT hknown hs (fun s q e hfailing => hfailing.unpark e) ?_
  exact fun s sig _ _ hfailing => hfailing.turn hf

end Steps

/-! ## Runs -/

/-- Whether a turn of a run is the first that ends an invocation with an error in a trigger. -/
structure FirstRaise (run : Nat → Engine.Turn) (T m : Nat) (i : Invocation) (err : Raised) : Prop where
  raises : (run m).raises? T = some (i, err)
  before : ∀ j < m, (run j).raises? T = none

section Runs

variable {run : Nat → Engine.Turn} {n : Nat} {p : Program} {T : Nat}

/-- A trigger that has not begun raises nothing. -/
theorem raises?_of_unborn (hopens : Opens (run 0)) (hplays : ∀ k < n, Play (run k) (run (k + 1))) {k : Nat}
    (hk : k ≤ n) (hT : (run k).engine.nextTrigger ≤ T) : (run k).raises? T = none := by
  obtain ⟨L, hL⟩ := orderly_run hopens hplays hk
  refine Engine.Turn.raises?_of_ne fun s sig hn => ?_
  exact ((hL.placed _ (Engine.Turn.mem_population_of_next hn)).known.trans_le hT).ne

/-- Nor does one that is over. -/
theorem raises?_of_over (hopens : Opens (run 0)) (hplays : ∀ k < n, Play (run k) (run (k + 1))) {k : Nat}
    (hk : k ≤ n) (ho : Over T (run k)) : (run k).raises? T = none := by
  obtain ⟨L, hL⟩ := orderly_run hopens hplays hk
  cases hn : (run k).next with
  | none => exact Engine.Turn.raises?_of_none hn
  | some x =>
    obtain ⟨s, sig⟩ := x
    by_cases hsT : s.scope.trigger = T
    · exact hL.raises?_of_outer hn hsT ((ho.outside _ (Engine.Turn.mem_population_of_next hn) hsT).resolve_right id)
    · rw [Engine.Turn.raises?, hn]
      exact if_neg hsT

/-- A trigger is calm when it has begun. -/
theorem calm_of_begin (hopens : Opens (run 0)) (hplays : ∀ k < n, Play (run k) (run (k + 1))) (ha : p.Anchored)
    {a : Nat} (han : a < n) {s : Strand} {node : String} {origin : Origin} {port : Option String} {seeds : Dict}
    (hstart : (run a).next = some (s, .call (.trigger node origin port seeds)))
    (hnode : p.graph.hasNode node = true) (hp : (run a).engine.program = p)
    (hT : (run a).engine.nextTrigger = T) : Calm p T (run (a + 1)) := by
  obtain ⟨L, hL⟩ := orderly_run hopens hplays han.le
  have hstep := (hplays a han).step
  have hmem := Engine.Turn.mem_population_of_next hstart
  have hout := (hL.placed _ hmem).sits.outer_of_trigger
  refine ⟨?_, ?_⟩
  · have hnone : (run a).reports? T = none := by
      rw [Engine.Turn.reports?_eq, raises?_of_unborn hopens hplays han.le hT.le]
      rfl
    rw [errorsOf_eq_of_reports?_none hstep hnone, Engine.errorsOf,
      heard_eq_nil_of_unborn hopens hplays han.le hT.le]
    rfl
  · rw [(hplays a han).eq_turn hstart]
    refine .begin hL hstart hT ?_
    show (run a).engine.Stays _ ((run a).engine.startTrigger s node origin port seeds)
    rcases (run a).engine.startTrigger_cases s node origin port seeds with
      ⟨-, h⟩ | ⟨e₁, err, ht, -, h⟩ | ⟨e₁, ht, h⟩
    · rw [h]
      exact .go (.of_eq rfl) (.inl hout)
    · rw [h]
      exact .go ht.strands (.inl hout)
    · rw [h]
      refine .go ht.strands (.inr (.walks ?_ (.trigger hout)))
      cases port with
      | some q => exact ha.knows_destinations hp node (some q)
      | none =>
        intro id hid
        rw [List.mem_singleton.mp hid]
        exact ha.nodeWithKind hnode

/-- What has become of a trigger that is in progress: nothing was raised, or an invocation was the first to
end with an error, and its failure is on its way up. -/
theorem calm_or_troubled (hopens : Opens (run 0)) (hplays : ∀ k < n, Play (run k) (run (k + 1)))
    (ha : p.Anchored) (hh : p.HandsOn) {a b : Nat} (hb : b < n) {s : Strand} {node : String} {origin : Origin}
    {port : Option String} {seeds : Dict}
    (hstart : (run a).next = some (s, .call (.trigger node origin port seeds)))
    (hnode : p.graph.hasNode node = true)
    (hprogram : ∀ k, a ≤ k → k ≤ b → (run k).engine.program = p)
    (hT : (run a).engine.nextTrigger = T) {k : Nat} (hak : a < k) (hkb : k ≤ b + 1) :
    ((∀ j < k, (run j).raises? T = none) ∧ Calm p T (run k)) ∨ ∃ m i err, m < k ∧ FirstRaise run T m i err ∧
      err.silent = false ∧ p.Runs i ∧ (run m).engine.program = p ∧
      (∀ j, m < j → j < k → ∀ i' err', (run j).raises? T = some (i', err') →
        err' = .failure (err.reportedAt T i)) ∧
      Troubled p T i (err.reportedAt T i) (run k) := by
  induction k, hak using Nat.le_induction with
  | base =>
    have hab : a ≤ b := Nat.le_of_lt_succ (Nat.lt_of_succ_le hkb)
    refine .inl ⟨fun j hj => ?_, calm_of_begin hopens hplays ha (hab.trans_lt hb) hstart hnode
      (hprogram a (Nat.le_refl a) hab) hT⟩
    have hja : j ≤ a := Nat.le_of_lt_succ hj
    have hle := nextTrigger_le_run hopens hplays hja (hab.trans hb.le)
    exact raises?_of_unborn hopens hplays (hja.trans (hab.trans hb.le)) (hle.trans hT.le)
  | succ k hak ih =>
    have hkb' : k ≤ b := Nat.le_of_lt_succ (Nat.lt_of_succ_le hkb)
    have hkn : k < n := hkb'.trans_lt hb
    obtain ⟨L₀, hL₀⟩ := orderly_run hopens hplays (((Nat.le_of_succ_le hak).trans hkb').trans hb.le)
    have hpos : T ≠ 0 := (hT ▸ hL₀.positive).ne'
    have hknown : T < (run k).engine.nextTrigger := hT ▸ nextTrigger_lt_run hopens hplays hak hkn.le hstart
    obtain ⟨L, hL⟩ := orderly_run hopens hplays hkn.le
    have hstep := (hplays k hkn).step
    -- the first raise is found at the step where the calm ends, and stays the first one afterwards
    rcases ih (Nat.le_of_succ_le hkb) with ⟨hnone, hcalm⟩ | ⟨m, i, err, hm, hfirst, herr, hi, hpm, hlater, htroubled⟩
    · have hp := hprogram k (Nat.le_of_succ_le hak) hkb'
      rcases hcalm.step hL hpos hknown hp ha hh hstep with ⟨hr, hc⟩ | ⟨i, err, hr, herr, hi, ht⟩
      · refine .inl ⟨fun j hj => ?_, hc⟩
        rcases Nat.lt_succ_iff_lt_or_eq.mp hj with hj | rfl
        · exact hnone j hj
        · exact hr
      · refine .inr ⟨k, i, err, Nat.lt_succ_self k, ⟨hr, hnone⟩, herr, hi, hp, fun j hkj hj => ?_, ht⟩
        exact absurd hj (Nat.not_lt.mpr hkj)
    · obtain ⟨hraised, ht⟩ := htroubled.step hL hpos hknown rfl hstep
      refine .inr ⟨m, i, err, hm.trans (Nat.lt_succ_self k), hfirst, herr, hi, hpm, fun j hmj hj => ?_, ht⟩
      rcases Nat.lt_succ_iff_lt_or_eq.mp hj with hj | rfl
      · exact hlater j hmj hj
      · exact hraised

/-- A failure that was reported names its trigger, or one that was named before. -/
theorem Raised.located_reportedAt (T : Nat) (i : Invocation) (err : Raised) :
    (err.reportedAt T i).trigger ≠ none ∧ (err.reportedAt T i).trigger ≠ some (.named "") := by
  have hin : ∀ f : Failure, (f.inTrigger (.serial T)).trigger ≠ none ∧
      (f.inTrigger (.serial T)).trigger ≠ some (.named "") := by
    intro f
    unfold Failure.inTrigger
    split
    · exact ⟨nofun, nofun⟩
    · exact ⟨nofun, nofun⟩
    · next hne h =>
      rw [h]
      exact ⟨nofun, fun hnamed => hne (Option.some.inj hnamed)⟩
  cases err with
  | failure f => exact hin _
  | fault f => exact ⟨nofun, nofun⟩
  | mute f => exact ⟨nofun, nofun⟩

theorem Failure.inTrigger_of_located {f : Failure} (h : f.trigger ≠ none ∧ f.trigger ≠ some (.named ""))
    (t : TriggerId) : f.inTrigger t = f := by
  unfold Failure.inTrigger
  split
  · next hnone => exact absurd hnone h.1
  · next hnamed => exact absurd hnamed h.2
  · rfl

/-- What observers and the result tell of the failure of a trigger that has ended: `i` is the invocation where
it arose and `m` the turn that ended it. -/
structure ReportedOnce (run : Nat → Engine.Turn) (n m : Nat) (R : TriggerResult) (i : Invocation) (f : Failure) :
    Prop where
  told : (run n).engine.errorsOf R.trigger = [.nodeErrored R.trigger i.node f.family.name f.message]
  result : R.error = some f
  located : f.trigger ≠ none ∧ f.trigger ≠ some (.named "")
  /-- the node shows the error -/
  shown : ∃ x, (run (m + 1)).engine.graph.node? i.node = some x ∧ x.error = some f.message
  /-- no other turn of the trigger lets a node show an error -/
  alone : ∀ k < n, (run k).In R.trigger → ∀ x msg,
    (run k).engine.graph.ShowsNew (run (k + 1)).engine.graph x msg → k = m ∧ x.id = i.node ∧ msg = f.message
  /-- further invocations end with the failure itself -/
  passed : ∀ k < n, m < k → ∀ j err, (run k).raises? R.trigger = some (j, err) → err = .failure f

/-- The node where a failure arose shows it. -/
theorem shown_of_first (hplays : ∀ k < n, Play (run k) (run (k + 1))) {m : Nat}
    (hm : m < n) {i : Invocation} {err : Raised} (hfirst : FirstRaise run T m i err) (herr : err.silent = false)
    (hi : p.Runs i) (hp : (run m).engine.program = p) :
    ∃ x, (run (m + 1)).engine.graph.node? i.node = some x ∧ x.serial = i.serial ∧
      x.error = some (err.reportedAt T i).message := by
  have hraises := hfirst.raises
  cases hn : (run m).next with
  | none =>
    rw [Engine.Turn.raises?_of_none hn] at hraises
    cases hraises
  | some y =>
    obtain ⟨s, sig⟩ := y
    by_cases hs : s.scope.trigger = T
    · rw [Engine.Turn.raises?_of_next hn hs] at hraises
      rw [(hplays m hm).eq_turn hn, ← hs]
      exact Engine.error_turn_of_raising hp hraises herr hi
    · rw [Engine.Turn.raises?, hn] at hraises
      simp only [hs, if_false] at hraises
      cases hraises

/-- By the turns of the trigger no other node shows an error, when later errors are the failure itself. -/
theorem alone_of_first (hopens : Opens (run 0)) (hplays : ∀ k < n, Play (run k) (run (k + 1))) {m : Nat}
    (hm : m < n) {i : Invocation} {err : Raised} (hfirst : FirstRaise run T m i err) (herr : err.silent = false)
    (hi : p.Runs i) (hp : (run m).engine.program = p)
    (hlater : ∀ k < n, m < k → ∀ j err', (run k).raises? T = some (j, err') →
      err' = .failure (err.reportedAt T i)) {k : Nat} (hk : k < n) (hin : (run k).In T) {x : Node} {msg : String}
    (hnew : (run k).engine.graph.ShowsNew (run (k + 1)).engine.graph x msg) :
    k = m ∧ x.id = i.node ∧ msg = (err.reportedAt T i).message := by
  obtain ⟨j, f, hreports, hserial, hmsg⟩ := hnew.reports? (hplays k hk).step hin
  rcases Nat.lt_trichotomy k m with hlt | rfl | hgt
  · rw [Engine.Turn.reports?_eq, hfirst.before k hlt] at hreports
    cases hreports
  · rw [Engine.Turn.reports?_eq, hfirst.raises, Option.filter_some] at hreports
    simp only [herr, Bool.not_false, if_true, Option.map_some] at hreports
    obtain ⟨rfl, rfl⟩ := Prod.mk.inj (Option.some.inj hreports)
    refine ⟨rfl, ?_, hmsg⟩
    -- nodes with one serial are one node
    obtain ⟨z, hz, hzserial, -⟩ := shown_of_first hplays hm hfirst herr hi hp
    have hnodup := (reachable_run hopens hplays (Nat.succ_le_of_lt hk)).kempt.graph.serials
    have hxz : x = z := List.inj_on_of_nodup_map hnodup hnew.1 (List.mem_of_find?_eq_some hz)
      (hserial.trans hzserial.symm)
    rw [hxz]
    simpa using List.find?_some hz
  · rw [Engine.Turn.reports?_eq_none fun j err' hr => ?_] at hreports
    · cases hreports
    · rw [hlater k hk hgt j err' hr]
      rfl

/-- After the turn that ends a trigger its errors stay as they were. -/
theorem errorsOf_eq_of_ended (hopens : Opens (run 0)) (hplays : ∀ k < n, Play (run k) (run (k + 1))) {b : Nat}
    (hb : b < n) (hT : T ≠ 0) (ho : Over T (run (b + 1))) (hr : (run b).raises? T = none) :
    (run n).engine.errorsOf T = (run b).engine.errorsOf T := by
  have hnone : (run b).reports? T = none := by
    rw [Engine.Turn.reports?_eq, hr]
    rfl
  rw [Engine.errorsOf, (heard_eq_of_over hopens hplays (Nat.succ_le_of_lt hb) (Nat.le_refl n) hT ho).2]
  exact errorsOf_eq_of_reports?_none (hplays b hb).step hnone

section Endings

variable {t : Engine.Turn} {s : Strand} {sig : Signal} {node : String} {origin : Origin} {fs : List Frame}
  {error : Option Failure}

/-- The turn that ends a trigger raises nothing there. -/
theorem raises?_of_ending (hn : t.next = some (s, sig)) (hf : s.frames = .trigger node origin :: fs)
    (hs : s.scope.trigger = T)
    (hsig : (∃ r, sig = .back r) ∧ error = none ∨ ∃ f, sig = .raise (.failure f) ∧ error = some f) :
    t.raises? T = none := by
  rw [Engine.Turn.raises?_of_next hn hs]
  rcases hsig with ⟨⟨r, rfl⟩, -⟩ | ⟨f, rfl, -⟩
  · simp [Strand.raising?, hf]
  · simp [Strand.raising?]

/-- A calm trigger ends without a failure. -/
theorem Calm.ending (hc : Calm p T t) (hn : t.next = some (s, sig)) (hf : s.frames = .trigger node origin :: fs)
    (hs : s.scope.trigger = T)
    (hsig : (∃ r, sig = .back r) ∧ error = none ∨ ∃ f, sig = .raise (.failure f) ∧ error = some f) :
    error = none := by
  have hclean : Clean p s.frames (.turn sig) := hc.during.of_top hn hs hf id
  rw [hf] at hclean
  rcases hsig with ⟨-, herror⟩ | ⟨f, rfl, -⟩
  · exact herror
  · exact hclean.not_raises.elim

/-- A trigger in trouble ends with the failure that was reported. -/
theorem Troubled.ending {i : Invocation} {f : Failure} (ht : Troubled p T i f t) (hn : t.next = some (s, sig))
    (hf : s.frames = .trigger node origin :: fs) (hs : s.scope.trigger = T)
    (hsig : (∃ r, sig = .back r) ∧ error = none ∨ ∃ f, sig = .raise (.failure f) ∧ error = some f) :
    error = some f := by
  have hfailing : Failing p f s.frames (.turn sig) := ht.during.of_top hn hs hf id
  rw [hf] at hfailing
  rcases hsig with ⟨⟨r, rfl⟩, -⟩ | ⟨f', rfl, rfl⟩
  · cases hfailing.raises_of_trigger
  · rw [Raised.failure.inj (Signal.raise.inj hfailing.raises_of_trigger)]

end Endings

/-- What is raised in a trigger before its end is all that is raised there. -/
theorem raises?_passed (hopens : Opens (run 0)) (hplays : ∀ k < n, Play (run k) (run (k + 1))) {m b : Nat}
    (hT : T ≠ 0) (ho : Over T (run (b + 1))) (hr : (run b).raises? T = none) {f : Failure}
    (hlater : ∀ j, m < j → j < b → ∀ i err, (run j).raises? T = some (i, err) → err = .failure f) :
    ∀ k < n, m < k → ∀ i err, (run k).raises? T = some (i, err) → err = .failure f := by
  intro k hk hmk i err hraises
  rcases Nat.lt_trichotomy k b with hkb | rfl | hbk
  · exact hlater k hmk hkb i err hraises
  · rw [hr] at hraises
    cases hraises
  · have hover := (heard_eq_of_over hopens hplays (Nat.succ_le_of_lt hbk) hk.le hT ho).1
    rw [raises?_of_over hopens hplays hk.le hover] at hraises
    cases hraises

/-- Every failure is reported once, where it arose. Behaviours are scripts, which wait for one thing at a time, and
their own errors are new and have a text. -/
theorem failure_reported_once (hopens : Opens (run 0)) (hplays : ∀ k < n, Play (run k) (run (k + 1)))
    (ha : p.Anchored) (hh : p.HandsOn) {a b : Nat} (hab : a ≤ b) (hb : b < n) {s : Strand} {node : String}
    {origin : Origin} {port : Option String} {seeds : Dict}
    (hstart : (run a).next = some (s, .call (.trigger node origin port seeds)))
    (hnode : p.graph.hasNode node = true)
    (hprogram : ∀ k, a ≤ k → k ≤ b → (run k).engine.program = p) {R : TriggerResult} (hends : (run b).Ends R)
    (hT : (run a).engine.nextTrigger = R.trigger) :
    (R.status ≠ .error → (run n).engine.errorsOf R.trigger = []) ∧
      (R.status = .error → ∃ m i err, FirstRaise run R.trigger m i err ∧
        ReportedOnce run n m R i (err.reportedAt R.trigger i)) := by
  obtain ⟨L, hL⟩ := orderly_run hopens hplays hb.le
  obtain ⟨L₀, hL₀⟩ := orderly_run hopens hplays (hab.trans hb.le)
  have hpos : R.trigger ≠ 0 := hT ▸ hL₀.positive.ne'
  have hknown : R.trigger < (run (b + 1)).engine.nextTrigger :=
    hT ▸ nextTrigger_lt_run hopens hplays (Nat.lt_succ_of_le hab) (Nat.succ_le_of_lt hb) hstart
  have hover := hends.over hL (hplays b hb).step hpos hknown
  have herrors := errorsOf_eq_of_ended hopens hplays hb hpos hover
  rcases hends.cases hL with ⟨s', node', origin', port', seeds', hn, -, hR⟩ |
    ⟨s', sig, node', origin', fs, error, hn, hf, hR, hsig⟩
  · -- refused: the trigger never began
    have hunborn : (run b).engine.nextTrigger ≤ R.trigger := by rw [hR]
    have hstatus : R.status = .cancelled := by rw [hR]
    refine ⟨fun _ => ?_, fun h => ?_⟩
    · rw [herrors (raises?_of_unborn hopens hplays hb.le hunborn), Engine.errorsOf,
        heard_eq_nil_of_unborn hopens hplays hb.le hunborn]
      rfl
    · rw [hstatus] at h
      cases h
  · have hs' : s'.scope.trigger = R.trigger := by rw [hR]; rfl
    have hlt : a < b := by
      refine lt_of_le_of_ne hab fun heq => ?_
      have hbegun := (hL.placed _ (Engine.Turn.mem_population_of_next hn)).known
      rw [hs', ← hT, heq] at hbegun
      exact hbegun.ne rfl
    have hraises : (run b).raises? R.trigger = none := raises?_of_ending hn hf hs' hsig
    -- up to its end the trigger stays calm, or something raises first and all that raises later passes it on
    rcases calm_or_troubled hopens hplays ha hh hb hstart hnode hprogram hT hlt (Nat.le_succ b) with
      ⟨-, hcalm⟩ | ⟨m, i, err, hm, hfirst, herr, hi, hpm, hlater, htroubled⟩
    · obtain rfl := hcalm.ending hn hf hs' hsig
      refine ⟨fun _ => (herrors hraises).trans hcalm.errors, fun h => ?_⟩
      rw [hR] at h
      simp only [Engine.resultOf, Option.isSome_none, Bool.false_eq_true, if_false] at h
      split at h <;> cases h
    · have hsame : error = some (err.reportedAt R.trigger i) := htroubled.ending hn hf hs' hsig
      have hlocated := err.located_reportedAt R.trigger i
      have hpassed := raises?_passed hopens hplays hpos hover hraises hlater
      refine ⟨fun h => absurd ?_ h, fun _ => ⟨m, i, err, hfirst, ?_⟩⟩
      · rw [hR, hsame]
        rfl
      · obtain ⟨x, hx, -, hshown⟩ := shown_of_first hplays (hm.trans hb) hfirst herr hi hpm
        refine ⟨(herrors hraises).trans htroubled.errors, ?_, hlocated, ⟨x, hx, hshown⟩, ?_, hpassed⟩
        · have hresult : R.error = error.map fun f => f.inTrigger (.serial s'.scope.trigger) := by
            rw [hR]
            rfl
          rw [hresult, hsame]
          exact congrArg some (Failure.inTrigger_of_located hlocated _)
        · intro k hk hin x msg hnew
          exact alone_of_first hopens hplays (hm.trans hb) hfirst herr hi hpm hpassed hk hin hnew

end Runs

/-! ## A fault below an input and a body -/

/-- Runs its body. -/
def enclosing : Behavior := fun _ => .wait (.advance "body") fun
  | .ok _ => .finish .null
  | .error err => .fail err

/-- Asks for its input. -/
def consuming : Behavior := fun _ => .wait (.pull "in") fun
  | .ok _ => .finish .null
  | .error err => .fail err

/-- A block with a body that asks for the value of a node that fails. -/
def faultSession : Engine.Turn :=
  opening (.initial {}
    { kinds := [.sketch "block" .statement [{ id := "exec", valueType := .exec }] [Library.leads "body"]
          (some enclosing),
        .sketch "sink" .statement [{ id := "exec", valueType := .exec }, { id := "in" }] [Library.leads "exec"]
          (some consuming),
        .sketch "fault" .expression [] [Library.yields "value" .any]
          (some fun _ => .fail (.fault .zeroDivision))] }
    { nodes := [{ serial := 0, id := "b", kind := "block" }, { serial := 1, id := "s", kind := "sink" },
        { serial := 2, id := "f", kind := "fault" }]
      edges := [⟨"b", "body", "s", "exec"⟩, ⟨"f", "value", "s", "in"⟩]
      nextSerial := 3 } 0.01)
    [.runNode "b"]

/-- The state after a number of steps of that session. -/
def faulty (n : Nat) : Engine.Turn := (follow n (faultSession, fun _ => {})).1

theorem handsOn_faultSession : faultSession.engine.program.HandsOn := by
  have hwaits : ∀ (w : Wait) (k : Except Raised w.Reply → Script), w.nests = true →
      (∀ a, k (.ok a) = .finish .null) → (∀ err, k (.error err) = .fail err) → (Script.wait w k).HandsOn := by
    intro w k hw hok herr
    refine .nest hw (fun a => ?_) (fun err => ?_)
    · rw [hok]
      exact .finish _
    · rw [herr]
      exact .fail
  intro k hk b hb state
  rcases List.mem_cons.mp hk with rfl | hk
  · obtain rfl := Option.some.inj hb
    exact hwaits _ _ rfl (fun _ => rfl) (fun _ => rfl)
  rcases List.mem_cons.mp hk with rfl | hk
  · obtain rfl := Option.some.inj hb
    exact hwaits _ _ rfl (fun _ => rfl) (fun _ => rfl)
  · rw [List.mem_singleton.mp hk] at hb
    obtain rfl := Option.some.inj hb
    exact .fail rfl

/-- The fault is reported once, at the node that has failed. -/
theorem fault_reported_once : ∃ R m i err, (faulty 19).Ends R ∧ R.status = .error ∧
    FirstRaise faulty R.trigger m i err ∧ ReportedOnce faulty 22 m R i (err.reportedAt R.trigger i) := by
  have hopens : Opens (faulty 0) := by
    show Opens faultSession
    refine ⟨_, _, _, _, _, ?_, rfl⟩
    exact ⟨by decide, by decide⟩
  have hgoes : ∀ k < 22, (Engine.advance (faulty k)).isSome = true := by decide +kernel
  have hplays : ∀ k < 22, Play (faulty k) (faulty (k + 1)) :=
    fun k hk => .of_advance (advance_follow (hgoes k hk))
  have hprogram : ∀ k, 1 ≤ k → k ≤ 19 → (faulty k).engine.program = faultSession.engine.program := by
    intro k _ hk
    interval_cases k <;> rfl
  obtain ⟨s, node, origin, port, seeds, hstart, hnode⟩ : ∃ s node origin port seeds,
      (faulty 1).next = some (s, .call (.trigger node origin port seeds)) ∧
        faultSession.engine.program.graph.hasNode node = true := ⟨_, _, _, _, _, rfl, rfl⟩
  obtain ⟨s', f, node', origin', fs, hn, hf, hT⟩ : ∃ s f node origin fs,
      (faulty 19).next = some (s, .raise (.failure f)) ∧ s.frames = .trigger node origin :: fs ∧
        (faulty 1).engine.nextTrigger = s.scope.trigger := ⟨_, _, _, _, _, rfl, rfl, rfl⟩
  have hends := Engine.Turn.Ends.of_trigger hn hf (.inr ⟨f, rfl, rfl⟩)
  obtain ⟨m, i, err, hfirst, hreported⟩ := (failure_reported_once hopens hplays ⟨by decide, by decide⟩
    handsOn_faultSession (by decide) (by decide) hstart hnode hprogram hends hT).2 rfl
  exact ⟨_, m, i, err, hends, rfl, hfirst, hreported⟩

/-! ## Errors that observers are not told of -/

/-- Whether a trigger of a node, during which the program stays as it is, ends with an error at a step of a run, while
up to a later step observers are told of no error in it and no node shows one. -/
structure Untold (run : Nat → Engine.Turn) (p : Program) (a b n : Nat) (node : String) : Prop where
  opens : Opens (run 0)
  plays : ∀ k < n, Play (run k) (run (k + 1))
  starts : ∃ s origin port seeds, (run a).next = some (s, .call (.trigger node origin port seeds))
  present : p.graph.hasNode node = true
  program : ∀ k, a ≤ k → k ≤ b → (run k).engine.program = p
  fails : ∃ R, (run b).Ends R ∧ (run a).engine.nextTrigger = R.trigger ∧ R.status = .error ∧
    (run n).engine.errorsOf R.trigger = []
  shows : ∀ x ∈ (run n).engine.graph.nodes, x.error = none

/-- What is left to see of a run that is followed from an opening, when its first trigger fails. -/
theorem Untold.of_follow {t : Engine.Turn} (hopens : Opens t) {run : Nat → Engine.Turn}
    (hrun : ∀ n, run n = (follow n (t, fun _ => {})).1) {p : Program} {a b n : Nat} {node : String}
    (hgoes : ∀ k < n, (Engine.advance (run k)).isSome = true)
    (hstarts : ∃ s origin port seeds, (run a).next = some (s, .call (.trigger node origin port seeds)))
    (hpresent : p.graph.hasNode node = true) (hprogram : ∀ k, a ≤ k → k ≤ b → (run k).engine.program = p)
    (hends : ∃ s f node' origin fs, (run b).next = some (s, .raise (.failure f)) ∧
      s.frames = .trigger node' origin :: fs ∧ s.scope.trigger = 1) (hfirst : (run a).engine.nextTrigger = 1)
    (herrors : ((run n).engine.errorsOf 1).isEmpty = true)
    (hshows : (run n).engine.graph.nodes.all (fun x => x.error.isNone) = true) : Untold run p a b n node where
  opens := by
    rw [hrun 0]
    exact hopens
  plays k hk := by
    have hgo := hgoes k hk
    rw [hrun k] at hgo
    rw [hrun k, hrun (k + 1)]
    exact .of_advance (advance_follow hgo)
  starts := hstarts
  present := hpresent
  program := hprogram
  fails := by
    obtain ⟨s, f, node', origin, fs, hn, hf, hT⟩ := hends
    refine ⟨_, Engine.Turn.Ends.of_trigger hn hf (.inr ⟨f, rfl, rfl⟩), hfirst.trans hT.symm, rfl, ?_⟩
    show (run n).engine.errorsOf s.scope.trigger = []
    rw [hT]
    exact List.isEmpty_iff.mp herrors
  shows x hx := Option.isNone_iff_eq_none.mp (List.all_eq_true.mp hshows x hx)

/-- The kind of a node is set to one that is not registered, and the node is run. -/
def lostSession : Engine.Turn :=
  opening (.initial {}
    { kinds := [.sketch "mark" .statement [{ id := "exec", valueType := .exec }] [Library.leads "exec"] none] }
    { nodes := [{ serial := 0, id := "x", kind := "mark" }], nextSerial := 1 } 0.01)
    [.command (.retag "x" "lost"), .runNode "x"]

/-- The state after a number of steps of that session. -/
def lost (n : Nat) : Engine.Turn := (follow n (lostSession, fun _ => {})).1

/-- A node is run whose behaviour ends with an error that observers have been told of before. -/
def staleSession : Engine.Turn :=
  opening (.initial {}
    { kinds := [.sketch "stale" .statement [{ id := "exec", valueType := .exec }] [Library.leads "exec"]
        (some fun _ => .fail (.failure { cause := .behaviorFailed "x" "stale" .zeroDivision, reported := true }))] }
    { nodes := [{ serial := 0, id := "x", kind := "stale" }], nextSerial := 1 } 0.01)
    [.runNode "x"]

/-- The state after a number of steps of that session. -/
def stale (n : Nat) : Engine.Turn := (follow n (staleSession, fun _ => {})).1

/-- A node is run that asks for the value of a node whose error has no text. -/
def mutterSession : Engine.Turn :=
  opening (.initial {}
    { kinds := [.sketch "sink" .statement [{ id := "exec", valueType := .exec }, { id := "in" }] [Library.leads "exec"]
          (some consuming),
        .sketch "mutter" .expression [] [Library.yields "value" .any] (some fun _ => .fail (.mute .key))] }
    { nodes := [{ serial := 0, id := "s", kind := "sink" }, { serial := 1, id := "m", kind := "mutter" }]
      edges := [⟨"m", "value", "s", "in"⟩]
      nextSerial := 2 } 0.01)
    [.runNode "s"]

/-- The state after a number of steps of that session. -/
def muttered (n : Nat) : Engine.Turn := (follow n (mutterSession, fun _ => {})).1

theorem relays_mutterSession : mutterSession.engine.program.Relays := by
  intro k hk b hb state
  rcases List.mem_cons.mp hk with rfl | hk
  · obtain rfl := Option.some.inj hb
    exact .nest rfl (fun _ => .finish _) fun err => .fail
  · rw [List.mem_singleton.mp hk] at hb
    obtain rfl := Option.some.inj hb
    exact .fail _

/-- Two triggers fail, and observers are told of no error, and no node shows one: the first before any invocation has
begun, the other with an error that is not new. A third one fails where an error has no text, and observers are told of
an error at the node that waited. -/
theorem failure_unreported : (∃ p : Program, p.HandsOn ∧ Untold lost p 3 5 8 "x") ∧
    (∃ p : Program, p.Anchored ∧ p.Relays ∧ Untold stale p 1 6 9 "x") ∧
    mutterSession.engine.program.Anchored ∧ mutterSession.engine.program.Relays ∧ ∃ i err R,
      FirstRaise muttered 1 8 i err ∧ i.node = "m" ∧ (muttered 13).Ends R ∧ R.trigger = 1 ∧ R.status = .error ∧
        (muttered 16).engine.errorsOf 1 =
          [.nodeErrored 1 "s" "BehaviorError" "Node 's' (sink) failed: <ValueError>"] := by
  have hlost : Opens lostSession := by
    refine ⟨_, _, _, _, _, ?_, rfl⟩
    exact ⟨by decide, by decide⟩
  have hstale : Opens staleSession := by
    refine ⟨_, _, _, _, _, ?_, rfl⟩
    exact ⟨by decide, by decide⟩
  refine ⟨⟨(lost 3).engine.program, ?_, ?_⟩, ⟨(stale 1).engine.program, ⟨by decide, by decide⟩, ?_, ?_⟩,
    ⟨by decide, by decide⟩, relays_mutterSession, ?_⟩
  · intro k hk b hb
    rw [List.mem_singleton.mp hk] at hb
    cases hb
  · refine .of_follow hlost (fun _ => rfl) (by decide +kernel) ⟨_, _, _, _, rfl⟩ rfl (fun k hk hk' => ?_)
      ⟨_, _, _, _, _, rfl, rfl, rfl⟩ rfl (by decide +kernel) (by decide +kernel)
    interval_cases k <;> rfl
  · intro k hk b hb state
    rw [List.mem_singleton.mp hk] at hb
    obtain rfl := Option.some.inj hb
    exact .fail _
  · refine .of_follow hstale (fun _ => rfl) (by decide +kernel) ⟨_, _, _, _, rfl⟩ rfl (fun k hk hk' => ?_)
      ⟨_, _, _, _, _, rfl, rfl, rfl⟩ rfl (by decide +kernel) (by decide +kernel)
    interval_cases k <;> rfl
  · have hbefore : ∀ j < 8, ((muttered j).raises? 1).isNone = true := by decide +kernel
    obtain ⟨i, err, hraises, hnode⟩ : ∃ i err, (muttered 8).raises? 1 = some (i, err) ∧ i.node = "m" :=
      ⟨_, _, rfl, rfl⟩
    obtain ⟨s, f, node, origin, fs, hn, hf, hT⟩ : ∃ s f node origin fs,
        (muttered 13).next = some (s, .raise (.failure f)) ∧ s.frames = .trigger node origin :: fs ∧
          s.scope.trigger = 1 := ⟨_, _, _, _, _, rfl, rfl, rfl⟩
    exact ⟨i, err, _, ⟨hraises, fun j hj => Option.isNone_iff_eq_none.mp (hbefore j hj)⟩, hnode,
      Engine.Turn.Ends.of_trigger hn hf (.inr ⟨f, rfl, rfl⟩), hT, rfl, rfl⟩

end Patchbay
