import Patchbay.Proofs.Functions
import Patchbay.Proofs.Interleaving
import Patchbay.Proofs.Outcomes
import Patchbay.Proofs.Programs
import Patchbay.Proofs.Recall

/-!
# The cache is transparent

In one trigger a data-only node is run once and then used again until something it read has moved. With
behaviours that only read, nobody can tell: at any point of a trigger, after any publications and
writes, a pull yields the value that plain evaluation yields, or an error of the same kind.

The proof goes down with the depth that is left, and at each depth follows the script of the node that
runs. A pull is made only if every free run of the node makes it; so what a node on the path waits for
cannot take as much depth as the node itself, and an output that is remembered is not on the path.

Contents:
* `Yields`, `Finishes`, `Runs`: how resolutions, scripts and runs end, against plain evaluation.
* `ResolvesInput`, `ResolvesOutput`, `Script.Settled`: that they do end so.

Results:
* `Engine.pullInput_wired_or_fixed`: an input is wired to an output, or has a value or an error of its own.
* `settles_behave`: a behaviour that reads ends as its script says.
* `settles_output`: resolving an output ends as plain evaluation does, and keeps what is remembered right.
* `pull_transparent`: a pull at any point of a trigger yields what plain evaluation yields.
* `pull_stale_executed`: not so when control flow executes a data-only node.
-/

namespace Patchbay

/-! ## Ends of resolutions -/

/-- How the resolution of a value ends, against plain evaluation: with its value, which free evaluation
yields in every world that agrees on what was noted, or with an error of the same kind. -/
inductive Yields (w : World) (free : World → Nat → Option (Except Raised Value))
    (plain : Option (Except Raised Value)) (e' : Engine) (sc' : Scope) : Signal → Prop
  | value {v : Value} {ds : Dependencies} (hplain : plain = some (.ok v)) (hst : e'.Stamped sc' ds)
      (hfree : ∀ w', w.Agree ds w' → ∃ n, free w' n = some (.ok v)) :
      Yields w free plain e' sc' (.back (.pulled v ds))
  | error {err err' : Raised} (hplain : plain = some (.error err')) (ha : err.Alike err') :
      Yields w free plain e' sc' (.raise err)

/-- How a script of a behaviour ends, against its outcome by plain evaluation. It has noted what it had
noted before, and all that its outcome depends on. -/
inductive Finishes (p : Program) (w : World) (node : String) (k : Kind Behavior) (b : Behavior)
    (script : Script) (plain : String → Option (Except Raised Value)) (ds : Dependencies) (e' : Engine)
    (sc' : Scope) : Signal → Prop
  | value {v : Value} {i : Invocation} (hk : i.kind = k)
      (hplain : script.outcome b w.values plain = some (.ok v)) (hst : e'.Stamped sc' i.dependencies)
      (hkeys : ∀ x ∈ ds, ∃ u, (x.1, u) ∈ i.dependencies)
      (hfree : ∀ w', w.Agree i.dependencies w' →
        ∃ n, script.outcome b w'.values (p.input (p.freeOutput w' n) node) = some (.ok v)) :
      Finishes p w node k b script plain ds e' sc' (.back (.invoked v i))
  | error {err err' : Raised} (hplain : script.outcome b w.values plain = some (.error err'))
      (ha : err.Alike (Program.raisedBy node k err')) :
      Finishes p w node k b script plain ds e' sc' (.raise err)

/-- How the run of a data-only node ends, against its run by plain evaluation. -/
inductive Runs (p : Program) (w : World) (node : String) (k : Kind Behavior)
    (plain : Option (Except Raised Dict)) (e' : Engine) (sc' : Scope) : Signal → Prop
  | value {v : Value} {i : Invocation} (hk : i.kind = k)
      (hplain : plain = some (.ok (Engine.mergedOutputs k [] v))) (hst : e'.Stamped sc' i.dependencies)
      (hfree : ∀ w', w.Agree i.dependencies w' →
        ∃ n, p.free w' n node k = some (.ok (Engine.mergedOutputs k [] v))) :
      Runs p w node k plain e' sc' (.back (.invoked v i))
  | error {err err' : Raised} (hplain : plain = some (.error err')) (ha : err.Alike err') :
      Runs p w node k plain e' sc' (.raise err)

/-- Whether the resolution of an input of a node ends as `plain` says, in a scope as quiet as `sc`. -/
def ResolvesInput (p : Program) (st : Variables) (w : World) (sc : Scope)
    (plain : Option (Except Raised Value)) (e : Engine) (s : Strand) (node port : String) : Prop :=
  Settles p st s.frames (fun e' sc' sig => Quiet p st sc e' sc' ∧
    Yields w (fun w' n => p.input (p.freeOutput w' n) node port) plain e' sc' sig) e s (.call (.input node port))

/-- Whether the resolution of an output of a node ends as plain evaluation at a depth does. -/
def ResolvesOutput (p : Program) (st : Variables) (w : World) (d : Nat) (e : Engine) (s : Strand)
    (node port : String) : Prop :=
  Settles p st s.frames (fun e' sc' sig => Quiet p st s.scope e' sc' ∧
    Yields w (fun w' n => p.freeOutput w' n node port) (p.plainOutput w d s.scope.path node port) e' sc' sig)
    e s (.call (.output node port))

/-! ## Scripts -/

/-- Whether every free run of a node that succeeds has had a value from one of its inputs. -/
def Program.Needs (p : Program) (w : World) (node : String) (k : Kind Behavior) (port : String) : Prop :=
  ∀ l os, p.free w (l + 1) node k = some (.ok os) → ∃ u, p.input (p.freeOutput w l) node port = some (.ok u)

/-- Whether the pulls of a node end as `plain` says, if every free run of the node makes them. -/
def Pulls (p : Program) (st : Variables) (w : World) (sc : Scope) (node : String) (k : Kind Behavior)
    (plain : String → Option (Except Raised Value)) : Prop :=
  ∀ (e : Engine) (s : Strand) (port : String), Quiet p st sc e s.scope → p.Needs w node k port →
    ResolvesInput p st w sc (plain port) e s node port

/-- Whether a script of a node ends as its outcome is by plain evaluation, if every free run of the node
comes to it. -/
def Script.Settled (p : Program) (st : Variables) (w : World) (sc : Scope) (node : String)
    (k : Kind Behavior) (b : Behavior) (plain : String → Option (Except Raised Value)) (script : Script) :
    Prop :=
  ∀ (e : Engine) (s : Strand) (i : Invocation), i.node = node → i.kind = k →
    Quiet p st sc e s.scope → e.Stamped s.scope i.dependencies →
    (∀ l os, p.free w (l + 1) node k = some (.ok os) →
      ∃ v, script.outcome b w.values (p.input (p.freeOutput w l) node) = some (.ok v)) →
    Settles p st s.frames (fun e' sc' sig => Quiet p st sc e' sc' ∧
      Finishes p w node k b script plain i.dependencies e' sc' sig) e s (.call (.behave i script))

section Scripts

variable {p : Program} {st : Variables} {w : World} {sc : Scope} {node : String} {k : Kind Behavior}
  {b : Behavior} {plain : String → Option (Except Raised Value)}

/-- An invocation that has just read something. -/
def Invocation.noting (i : Invocation) (sc : Scope) (e : Engine) (d : Dependency) : Invocation :=
  { i with dependencies := i.dependencies.note d (e.currentVersion sc d) }

/-- An error that ends a script. -/
theorem settles_fail {e : Engine} {s : Strand} {i : Invocation} {script : Script} {err err' : Raised}
    {ds : Dependencies} (hi : i.node = node) (hk : i.kind = k) (hq : Quiet p st sc e s.scope)
    (ho : script.outcome b w.values plain = some (.error err'))
    (ha : err.Alike err') :
    Settles p st s.frames (fun e' sc' sig => Quiet p st sc e' sc' ∧
      Finishes p w node k b script plain ds e' sc' sig) e s (.call (.behave i (.fail err))) := by
  obtain ⟨e', err₁, hh, halike, heq⟩ := hq.holds.failInvocation s i err
  refine .call heq (.ended rfl trivial ⟨hq.of_eq hh rfl rfl rfl rfl rfl, .error ho ?_⟩)
  rw [hi, hk] at halike
  exact halike.trans (ha.raisedBy node k)

/-- A script ends as what follows its first step does, if the step has noted what it depends on. -/
theorem Finishes.step {script script' : Script} {ds ds' : Dependencies} {e' : Engine} {sc' : Scope}
    {sig : Signal} (h : Finishes p w node k b script' plain ds' e' sc' sig)
    (hplain : script.outcome b w.values plain = script'.outcome b w.values plain)
    (hkeys : ∀ x ∈ ds, ∃ u, (x.1, u) ∈ ds')
    (hfree : ∀ w' n v, w.Agree ds' w' →
      script'.outcome b w'.values (p.input (p.freeOutput w' n) node) = some (.ok v) →
        ∃ n, script.outcome b w'.values (p.input (p.freeOutput w' n) node) = some (.ok v)) :
    Finishes p w node k b script plain ds e' sc' sig := by
  cases h with
  | value hk ho hst hkeys' hfree' =>
    refine .value hk (hplain.trans ho) hst (fun x hx => ?_) fun w' hw' => ?_
    · obtain ⟨u, hu⟩ := hkeys x hx
      exact hkeys' (x.1, u) hu
    · obtain ⟨n, hn⟩ := hfree' w' hw'
      exact hfree w' n _ (hw'.of_keys hkeys') hn
  | error ho ha => exact .error (hplain.trans ho) ha

/-- A step that goes on with a script of the same outcome. -/
theorem Script.Settled.same {script script' : Script} (h : Script.Settled p st w sc node k b plain script')
    (ho : ∀ values f, script.outcome b values f = script'.outcome b values f) (e : Engine) (s : Strand)
    (i : Invocation) (hi : i.node = node) (hk : i.kind = k) (hq : Quiet p st sc e s.scope)
    (hst : e.Stamped s.scope i.dependencies)
    (hneed : ∀ l os, p.free w (l + 1) node k = some (.ok os) →
      ∃ v, script.outcome b w.values (p.input (p.freeOutput w l) node) = some (.ok v)) :
    Settles p st s.frames (fun e' sc' sig => Quiet p st sc e' sc' ∧
      Finishes p w node k b script plain i.dependencies e' sc' sig) e s (.call (.behave i script')) := by
  refine (h e s i hi hk hq hst fun l os hf => ?_).mono fun e' sc' sig h' => ⟨h'.1, ?_⟩
  · obtain ⟨v, hv⟩ := hneed l os hf
    exact ⟨v, (ho _ _).symm.trans hv⟩
  · exact h'.2.step (ho _ _) (fun x hx => ⟨x.2, hx⟩) fun w' n v _ hv => ⟨n, (ho _ _).trans hv⟩

theorem Script.Settled.finish (v : Value) : Script.Settled p st w sc node k b plain (.finish v) := by
  intro e s i hi hk hq hst _
  obtain ⟨e', hh, heq⟩ := hq.holds.finishInvocation s i v
  refine .call heq (.ended rfl trivial ⟨hq.of_eq hh rfl rfl rfl rfl rfl, .value hk ?_ ?_ ?_ ?_⟩)
  · rw [Script.outcome]
  · exact hst.congr (hh.store.trans hq.holds.store.symm) rfl
  · exact fun x hx => ⟨x.2, hx⟩
  · exact fun w' _ => ⟨0, by rw [Script.outcome]⟩

/-- A step that reads one thing and goes on, where the outcome of what it goes on with is the same in all
worlds that agree on the thing. -/
theorem Script.Settled.read {script script' : Script} {d : Dependency} (hd : d.Textual)
    (h : Script.Settled p st w sc node k b plain script')
    (heq : ∀ {e : Engine} {s : Strand} {i : Invocation}, e.Holds p st →
      e.call s (.behave i script) = e.go s (.call (.behave (i.noting s.scope e d) script')))
    (ho : ∀ {w' : World} {ds : Dependencies} {u : Nat}, w.Agree ds w' → (d, u) ∈ ds →
      ∀ f, script.outcome b w'.values f = script'.outcome b w'.values f) :
    Script.Settled p st w sc node k b plain script := by
  intro e s i hi hk hq hst hneed
  have hst' : e.Stamped s.scope (i.noting s.scope e d).dependencies := hst.note hd
  have hsame : ∀ f, script.outcome b w.values f = script'.outcome b w.values f :=
    ho (.refl [(d, 0)] w) List.mem_cons_self
  refine .call (heq hq.holds) ((h e s (i.noting s.scope e d) hi hk hq hst' fun l os hf => ?_).mono
    fun e' sc' sig h' => ⟨h'.1, ?_⟩)
  · rw [← hsame]
    exact hneed l os hf
  · refine h'.2.step (hsame _) (fun x hx => Dependencies.key_mem_note _ _ hx) fun w' n v hagree hv => ⟨n, ?_⟩
    rw [ho hagree (Dependencies.self_mem_note _ hd)]
    exact hv

/-- A step that pulls, and hands on the error if the pull has failed. -/
theorem Script.Settled.pull (hr : p.Reading) (hpull : Pulls p st w sc node k plain) {port : String}
    {kk : Except Raised Value → Script} (hreads : ∀ v, (kk (.ok v)).Reads b)
    (handsOn : ∀ err, kk (.error err) = .fail err)
    (h : ∀ v, Script.Settled p st w sc node k b plain (kk (.ok v))) :
    Script.Settled p st w sc node k b plain (.wait (.pull port) kk) := by
  intro e s i hi hk hq hst hneed
  -- a free run that succeeds has had a value from this pull
  have hasked : ∀ l os, p.free w (l + 1) node k = some (.ok os) →
      ∃ u v, p.input (p.freeOutput w l) node port = some (.ok u) ∧
        (kk (.ok u)).outcome b w.values (p.input (p.freeOutput w l) node) = some (.ok v) := by
    intro l os hf
    obtain ⟨v, hv⟩ := hneed l os hf
    rw [Script.outcome, Option.bind_eq_bind, Option.bind_eq_some_iff] at hv
    obtain ⟨r, hpulled, hv⟩ := hv
    cases r with
    | error err => rw [Script.outcome_handsOn b _ _ handsOn] at hv; simp at hv
    | ok u => exact ⟨u, v, hpulled, hv⟩
  have heq : e.call s (.behave i (.wait (.pull port) kk)) =
      e.nest s (.behavior i (.pull port) kk) (.input node port) := by
    rw [← hi]
    rfl
  have hneeds : p.Needs w node k port := by
    intro l os hf
    obtain ⟨u, _, hu, _⟩ := hasked l os hf
    exact ⟨u, hu⟩
  have hres := hpull e { s with frames := .behavior i (.pull port) kk :: s.frames } port hq hneeds
  refine .call heq (hres.under fun e' s' sig hf hend h' => ?_)
  obtain ⟨hq', hy⟩ := h'
  cases hy with
  | @value v ds hplain hst' hfree =>
    have hmerged : e'.Stamped s'.scope (i.dependencies.merge ds) := by
      refine Engine.Stamped.merge (hst.congr ?_ ?_) hst'
      · rw [hq'.holds.store, hq.holds.store]
      · rw [hq'.keeps.epochs, hq.keeps.epochs]
    refine .back hf rfl ((h v e' { s' with frames := s.frames }
      { i with dependencies := i.dependencies.merge ds } hi hk hq' hmerged fun l os hf => ?_).mono
      fun e'' sc'' sig h' => ⟨h'.1, ?_⟩)
    · -- the value is the one that free evaluation yields
      obtain ⟨u, v', hu, hv'⟩ := hasked l os hf
      obtain ⟨n, hn⟩ := hfree w (.refl ds w)
      obtain rfl : u = v := Program.input_unique hr hu hn
      exact ⟨v', hv'⟩
    · refine h'.2.step ?_ (fun x hx => Dependencies.key_mem_merge_left ds hx)
        fun w' n v' hagree hv' => ?_
      · rw [Script.outcome, hplain]
        rfl
      · have hds : w.Agree ds w' := hagree.of_keys fun x hx =>
          Dependencies.key_mem_merge_right _ (hst' x hx).1 hx
        obtain ⟨n', hn'⟩ := hfree w' hds
        refine ⟨max n n', ?_⟩
        rw [Script.outcome, Program.input_mono hr (le_max_right n n') hn']
        exact (hreads v).outcome_ok (fun port u => Program.input_mono hr (le_max_left n n')) hv'
  | @error err err' hplain ha =>
    refine .raise hf rfl ?_
    rw [handsOn]
    refine settles_fail (s := { s' with frames := s.frames }) hi hk hq' ?_ ha
    rw [Script.outcome, hplain]
    exact Script.outcome_handsOn b _ _ handsOn err'

/-- A behaviour that reads ends as its script says, where each pull ends as `plain` says. -/
theorem settles_behave (hr : p.Reading) (hb : k.behavior = some b) (hw : st.values = w.values)
    (hpull : Pulls p st w sc node k plain) {script : Script} (hs : script.Reads b) :
    Script.Settled p st w sc node k b plain script := by
  induction hs with
  | finish v => exact .finish v
  | fail err =>
    intro e s i hi hk hq _ _
    exact settles_fail hi hk hq (by rw [Script.outcome]) (.refl err)
  | again state _ ih =>
    intro e s i hi hk hq hst hneed
    have heq : e.call s (.behave i (.again state)) = e.go s (.call (.behave i (b state))) := by
      simp only [Engine.call, Engine.behave, hk, hb]
    exact .call heq (ih.same (fun _ _ => by rw [Script.outcome]) e s i hi hk hq hst hneed)
  | readVariable name kk _ ih =>
    refine (ih (w.values.get? name)).read (d := .oneVariable name) trivial (fun {e s i} hh => ?_)
      fun hagree hmem f => ?_
    · have hval : e.store.get? name = w.values.get? name := by rw [Variables.get?, hh.store, hw]
      rw [← hval]
      rfl
    · have hsame : w.values.get? name = _ := hagree _ hmem
      rw [Script.outcome, ← hsame]
  | readVariables kk _ ih =>
    refine (ih w.values).read (d := .allVariables) trivial (fun {e s i} hh => ?_) fun hagree hmem f => ?_
    · have hval : e.store.values = w.values := by rw [hh.store, hw]
      rw [← hval]
      rfl
    · have hsame : w.values = _ := hagree _ hmem
      rw [Script.outcome, ← hsame]
  | pull port kk hreads handsOn ih => exact .pull hr hpull hreads handsOn ih
  | log level message kk _ ih =>
    intro e s i hi hk hq hst hneed
    have hh := hq.holds.emit (.log s.scope.trigger i.node (levelWord level) message)
    refine .call rfl (ih.same (fun _ _ => by rw [Script.outcome]) _ s i hi hk
      (hq.of_eq hh rfl rfl rfl rfl rfl) (hst.congr rfl rfl) hneed)
  | checkpoint kk _ hsame ih =>
    intro e s i hi hk hq hst hneed
    refine .pause (.call s _) rfl fun e' hh => .back rfl rfl ?_
    have hwait : ∀ values f, (Script.wait .checkpoint kk).outcome b values f = (kk (.ok true)).outcome b values f :=
      fun _ _ => by rw [Script.outcome]
    have hrest := ih.same hwait e' s i hi hk (hq.of_eq hh rfl rfl rfl rfl rfl)
      (hst.congr (hh.store.trans hq.holds.store.symm) rfl) hneed
    cases hrun : e'.running with
    | true => exact hrest
    | false =>
      rw [hsame]
      exact hrest

/-- The invocation of a data-only node, whose run makes only the pulls that every free run makes. -/
theorem settles_invoke (hr : p.Reading) {m : Node} (hn : p.nodeWithKind node = .ok (m, k))
    (hd : k.dataOnly = true) (hw : st.values = w.values)
    (hpull : Pulls p st w sc node k plain) {e : Engine} {s : Strand} {i : Invocation}
    (hi : i.node = node) (hk : i.kind = k) (hq : Quiet p st sc e s.scope) (hds : i.dependencies = []) :
    Settles p st s.frames (fun e' sc' sig => Quiet p st sc e' sc' ∧
      Runs p w node k (Program.run w plain node k) e' sc' sig) e s (.call (.invoke i)) := by
  have hq' : Quiet p st sc (e.emitStarted s.scope i) s.scope :=
    hq.of_eq (hq.holds.emit _) rfl rfl rfl rfl rfl
  cases hb : k.behavior with
  | none =>
    obtain ⟨e', err', hh, ha, heq⟩ := hq'.holds.failInvocation s i (.fault .type)
    have hcall : e.call s (.invoke i) = e'.go s (.raise err') := by
      rw [← heq]
      simp only [Engine.call, Engine.invoke, hk, hb]
    rw [hi, hk] at ha
    refine .call hcall (.ended rfl trivial ⟨hq.of_eq hh rfl rfl rfl rfl rfl, .error ?_ ha⟩)
    simp only [Program.run, hb]
  | some b =>
    have hcall : e.call s (.invoke i) = (e.emitStarted s.scope i).go s (.call (.behave i (b .null))) := by
      simp only [Engine.call, Engine.invoke, hk, hb]
    have hst : (e.emitStarted s.scope i).Stamped s.scope i.dependencies := by
      rw [hds]
      simp [Engine.Stamped]
    have hscript := settles_behave hr hb hw hpull (hr k (Program.mem_kinds hn) hd b hb)
    refine .call hcall ((hscript _ s i hi hk hq' hst fun l os hf => ?_).mono fun e' sc' sig h => ⟨h.1, ?_⟩)
    · simp only [Program.free, Program.run, hb, Option.map_eq_some_iff] at hf
      obtain ⟨r, ho, hos⟩ := hf
      cases r with
      | error err => simp at hos
      | ok v => exact ⟨v, ho⟩
    · cases h.2 with
      | value hk' hplain hst' _ hfree =>
        refine .value hk' ?_ hst' fun w' hagree => ?_
        · simp only [Program.run, hb, hplain, Option.map_some]
        · obtain ⟨n, ho⟩ := hfree w' hagree
          refine ⟨n + 1, ?_⟩
          simp only [Program.free, Program.run, hb]
          exact Option.map_eq_some_iff.mpr ⟨_, ho, rfl⟩
      | error hplain ha =>
        refine .error ?_ ha
        simp only [Program.run, hb, hplain, Option.map_some]

end Scripts

/-! ## Inputs and outputs -/

/-- A state in which an output may be resolved by plain evaluation at a depth. -/
structure Ready (p : Program) (st : Variables) (w : World) (depth : Nat) (e : Engine) (sc : Scope) :
    Prop where
  holds : e.Holds p st
  sound : Sound p e sc
  world : p.world st sc = w
  depth : p.graph.nodes.length ≤ depth + sc.path.length
  nodup : (sc.path.map Prod.fst).Nodup
  known : ∀ x ∈ sc.path, ∃ m ∈ p.graph.nodes, m.id = x.1
  marked : sc.Marked

/-- How the resolution of something ends that was read nowhere. -/
def endOf : Except Raised Value → Signal
  | .ok v => .back (.pulled v [])
  | .error err => .raise err

theorem literalResult_eq_endOf (q : Port) (v : Value) :
    Engine.literalResult q v = endOf (Fault.lift (coerce v q.valueType)) := by
  unfold Engine.literalResult
  cases coerce v q.valueType <;> rfl

/-- An input is wired to an output, or has a value or an error of its own. -/
theorem Engine.pullInput_wired_or_fixed (e : Engine) (s : Strand) (node port : String) :
    (∃ x, e.program.Wired node port x ∧ e.pullInput s node port = e.go s (.call (.output x.source x.sourcePort))) ∨
      ∃ r, e.program.Fixed node port r ∧ e.pullInput s node port = e.go s (endOf r) := by
  have hprogram := e.nodeWithKind_program node
  have hgraph : e.program.graph.incoming? node port = e.graph.incoming? node port := rfl
  have hconfig : e.program.config = e.config := rfl
  have hcases := e.pullInput_cases s node port
  generalize e.pullInput s node port = t at hcases ⊢
  cases hcases with
  | @unknown err hn =>
    refine .inr ⟨.error err, fun f => ?_, rfl⟩
    simp only [Program.input, hprogram, hn, Except.map]
  | @portless n k hn hport =>
    refine .inr ⟨.error (.cause (.kindHasNoDataInput k.id port)), fun f => ?_, rfl⟩
    simp only [Program.input, hprogram, hn, Except.map, hport]
  | @wired n k q x hn hport hx =>
    refine .inl ⟨x, fun f => ?_, rfl⟩
    simp only [Program.input, hprogram, hn, Except.map, hport, hgraph, hx]
  | @literal n k q v hn hport hx hv =>
    refine .inr ⟨Fault.lift (coerce v q.valueType), fun f => ?_, by rw [literalResult_eq_endOf]⟩
    cases hl : n.literals.get? port with
    | some w =>
      obtain rfl : w = v := by simpa [hl] using hv
      simp only [Program.input, hprogram, hn, Except.map, hport, hgraph, hx, Node.bare, hl]
    | none =>
      have hdefault : q.default = some v := by simpa [hl] using hv
      simp only [Program.input, hprogram, hn, Except.map, hport, hgraph, hx, Node.bare, hl, hdefault]
  | @null n k q hn hport hx hv hpolicy =>
    obtain ⟨hl, hdefault⟩ := Option.or_eq_none_iff.mp hv
    refine .inr ⟨.ok .null, fun f => ?_, rfl⟩
    simp only [Program.input, hprogram, hn, Except.map, hport, hgraph, hx, Node.bare, hl, hdefault, hconfig, hpolicy,
      if_true]
  | @missing n k q hn hport hx hv hpolicy =>
    obtain ⟨hl, hdefault⟩ := Option.or_eq_none_iff.mp hv
    refine .inr ⟨.error (.cause (.missingLiteral port node)), fun f => ?_, rfl⟩
    simp only [Program.input, hprogram, hn, Except.map, hport, hgraph, hx, Node.bare, hl, hdefault, hconfig, hpolicy,
      Bool.false_eq_true, if_false]

/-- Resolving an input, where outputs are resolved as plain evaluation says. -/
theorem settles_input {p : Program} {st : Variables} {w : World} {d : Nat} {e : Engine} {s : Strand}
    (hq : Quiet p st s.scope e s.scope) {node port : String}
    (hpath : p.Awaited w s.scope.path fun l => p.input (p.freeOutput w l) node port)
    (hout : ∀ source q, p.Awaited w s.scope.path (fun l => p.freeOutput w l source q) →
      ResolvesOutput p st w d e s source q) :
    ResolvesInput p st w s.scope (p.plainInput w d s.scope.path node port) e s node port := by
  have hprogram := hq.holds.program
  rcases e.pullInput_wired_or_fixed s node port with ⟨x, hx, heq⟩ | ⟨r, hr, heq⟩
  · have hin : ∀ f, p.input f node port = f x.source x.sourcePort := hprogram ▸ hx
    simp only [hin, Program.plainInput, ResolvesInput] at hpath ⊢
    exact .call heq (hout x.source x.sourcePort hpath)
  · -- what the input has of its own does not depend on the world
    have hin : ∀ f, p.input f node port = some r := hprogram ▸ hr
    cases r with
    | ok v =>
      refine .call heq (.ended rfl trivial ⟨hq, .value (hin _) ?_ fun w' _ => ⟨0, hin _⟩⟩)
      simp [Engine.Stamped]
    | error err => exact .call heq (.ended rfl trivial ⟨hq, .error (hin _) (.refl err)⟩)

/-! ## The run of a data-only node -/

section Output

variable {p : Program} {st : Variables} {w : World} {sc : Scope} {node port : String} {m : Node}
  {k : Kind Behavior}

/-- The scope in which a data-only node runs for one of its outputs. -/
def Scope.running (sc : Scope) (node port : String) : Scope := (sc.resetNode node).enter node port

theorem dataOnly_of_nodeWithKind (hn : p.nodeWithKind node = .ok (m, k)) (hd : k.dataOnly = true) :
    p.dataOnly node = true := by
  simp only [Program.dataOnly, hn, hd]

theorem Scope.outputsOf_running (sc : Scope) (node port other : String) :
    (sc.running node port).outputsOf other = if other = node then [] else sc.outputsOf other :=
  Scope.outputsOf_resetNode sc node other

/-- Outputs that are kept while a node runs are not those of the node. -/
theorem ne_of_kept (hd : p.dataOnly node = true) (hp : node ∉ sc.path.map Prod.fst) {other : String}
    (ho : p.dataOnly other = false ∨ other ∈ sc.path.map Prod.fst) : other ≠ node := by
  rintro rfl
  rcases ho with ho | ho
  · rw [hd] at ho
    exact Bool.false_ne_true ho.symm
  · exact hp ho

theorem world_running (hd : p.dataOnly node = true) (st : Variables) (sc : Scope) (port : String) :
    p.world st (sc.running node port) = p.world st sc := by
  simp only [Program.world, World.mk.injEq, true_and]
  funext other q
  split
  · rfl
  · next ho =>
    rw [Scope.outputsOf_running, if_neg]
    rintro rfl
    exact ho hd

/-- Beginning to run a node forgets what was remembered of it, and nothing else. -/
theorem Sound.running {e : Engine} (h : Sound p e sc) (hd : p.dataOnly node = true) (port : String) :
    Sound p e (sc.running node port) := by
  intro other ds hc
  have hne : other ≠ node := by
    rintro rfl
    rw [show (sc.running other port).cached? other = none from Scope.cached?_resetNode_self sc other] at hc
    simp at hc
  rw [show (sc.running node port).cached? other = sc.cached? other from
    Scope.cached?_resetNode sc hne] at hc
  refine (h other ds hc).later (.of_eq rfl rfl (world_running hd _ sc port)) ?_
  rw [Scope.outputsOf_running, if_neg hne]

/-- What was kept while a node ran is kept after it, whatever its outputs are. -/
theorem Keeps.ran {sc' : Scope} (h : Keeps p (sc.running node port) sc') (hd : p.dataOnly node = true)
    (hm : sc.Marked) (hp : node ∉ sc.path.map Prod.fst) {sc'' : Scope} (he : sc''.epochs = sc'.epochs)
    (hpath : sc''.path = sc'.path.dropLast)
    (hmarks : sc''.resolving = sc'.resolving.filter fun m => m != node)
    (ho : ∀ other, other ≠ node → sc''.outputsOf other = sc'.outputsOf other) : Keeps p sc sc'' := by
  refine ⟨he.trans h.epochs, ?_, ?_, fun other hother => ?_⟩
  · rw [hpath, h.path]
    exact List.dropLast_concat
  · have hnot : node ∉ sc.resolving := by simpa [Scope.isResolving] using hm.isResolving_eq_false.mpr hp
    rw [hmarks, h.resolving]
    exact Scope.resolving_leave_enter hnot
  · have hne := ne_of_kept hd hp hother
    have hrun := h.outputs other (hother.imp id fun hm => by
      simpa [Scope.running, Scope.enter, Scope.resetNode] using Or.inl (List.mem_map.mp hm))
    rw [ho other hne, hrun, Scope.outputsOf_running, if_neg hne]

/-- The scope once a run has ended with outputs, and with notes. -/
def Scope.stored (sc : Scope) (node : String) (os : Dict) (ds : Dependencies) : Scope :=
  ((sc.leave node).withOutputs node os).cache node ds

theorem Scope.outputsOf_stored (sc : Scope) (node other : String) (os : Dict) (ds : Dependencies) :
    (sc.stored node os ds).outputsOf other = if other = node then os else sc.outputsOf other :=
  Scope.outputsOf_withOutputs (sc.leave node) node other os

/-- Storing the outputs of a run keeps what is remembered right, if free runs yield them too. -/
theorem Quiet.stored {e : Engine} {sc' : Scope} {os : Dict} {ds : Dependencies}
    (hq : Quiet p st (sc.running node port) e sc') (hn : p.nodeWithKind node = .ok (m, k))
    (hd : k.dataOnly = true) (hm : sc.Marked) (hnode : node ∉ sc.path.map Prod.fst)
    (hw : p.world st sc = w) (hst : e.Stamped sc' ds)
    (hfree : ∀ w', w.Agree ds w' → ∃ n, p.free w' n node k = some (.ok os)) {e' : Engine}
    (hh : e'.Holds p st) : Quiet p st sc e' (sc'.stored node os ds) := by
  have hdn := dataOnly_of_nodeWithKind hn hd
  have hstore : e'.store = e.store := hh.store.trans hq.holds.store.symm
  have hkeeps : Keeps p sc (sc'.stored node os ds) := by
    refine hq.keeps.ran hdn hm hnode rfl rfl rfl fun other hne => ?_
    rw [Scope.outputsOf_stored, if_neg hne]
  refine ⟨hh, hkeeps, fun other ds' hc => ?_⟩
  rw [Scope.stored, Scope.cached?_cache] at hc
  split at hc
  · next heq =>
    obtain rfl := Option.some.inj hc
    subst heq
    have hst' : e'.Stamped (sc'.stored other os ds) ds := hst.congr hstore rfl
    refine ⟨hdn, fun x hx => ⟨(hst' x hx).1, (hst' x hx).2.le⟩, fun _ w' hagree => ?_⟩
    rw [hh.store, hkeeps.world_eq, hw] at hagree
    obtain ⟨n, hn'⟩ := hfree w' hagree
    exact ⟨n, m, k, hn, by rw [Scope.outputsOf_stored, if_pos rfl, hn']⟩
  · next hne =>
    have hworld : p.world st (sc'.stored node os ds) = p.world st sc' := by
      rw [hkeeps.world_eq, hq.keeps.world_eq, world_running hdn]
    refine (hq.sound other ds' hc).later (.of_eq hstore rfl ?_) ?_
    · rw [hstore, hq.holds.store, hworld]
    · rw [Scope.outputsOf_stored, if_neg hne]

/-- One of the outputs of a data-only node is handed on, where free runs yield the same outputs. -/
theorem settles_picked {e : Engine} {s : Strand} {os : Dict} {ds : Dependencies}
    {plain : Option (Except Raised Value)} (hn : p.nodeWithKind node = .ok (m, k))
    (hp : (k.outputPort port).isNone = false) (hd : k.dataOnly = true) (hq : Quiet p st sc e s.scope)
    (hos : s.scope.outputsOf node = os) (hst : e.Stamped s.scope ds)
    (hfree : ∀ w', w.Agree ds w' → ∃ n, p.free w' n node k = some (.ok os))
    (hplain : plain = some (Program.pick node port (.ok os))) :
    Settles p st s.frames (fun e' sc' sig => Quiet p st sc e' sc' ∧
      Yields w (fun w' n => p.freeOutput w' n node port) plain e' sc' sig)
      e s (Engine.outputResult s.scope node port ds) := by
  unfold Engine.outputResult
  rw [hos]
  cases hget : os.get? (.str port) with
  | some v =>
    have hpick : Program.pick node port (.ok os) = .ok v := by simp only [Program.pick, hget]
    rw [hpick] at hplain
    refine .ended rfl trivial ⟨hq, .value hplain hst fun w' hagree => ?_⟩
    obtain ⟨n, hn'⟩ := hfree w' hagree
    refine ⟨n, ?_⟩
    rw [Program.freeOutput, Program.output_of_dataOnly hn hp hd, hn', Option.map_some, hpick]
  | none =>
    have hpick : Program.pick node port (.ok os) = .error (.cause (.notProduced node port)) := by
      simp only [Program.pick, hget]
    rw [hpick] at hplain
    exact .ended rfl trivial ⟨hq, .error hplain (.refl _)⟩

/-- The end of a run reaches the output it was for. -/
theorem settles_ran {frames : List Frame} {e : Engine} {s : Strand} {sig : Signal} {serial : Nat}
    {run : Option (Except Raised Dict)} {plain : Option (Except Raised Value)}
    (hn : p.nodeWithKind node = .ok (m, k)) (hd : k.dataOnly = true)
    (hp : (k.outputPort port).isNone = false) (hm : sc.Marked) (hnode : node ∉ sc.path.map Prod.fst)
    (hw : p.world st sc = w) (hf : s.frames = .output node port serial :: frames)
    (hq : Quiet p st (sc.running node port) e s.scope) (hrun : Runs p w node k run e s.scope sig)
    (hplain : plain = run.map (Program.pick node port)) :
    Settles p st frames (fun e' sc' sig => Quiet p st sc e' sc' ∧
      Yields w (fun w' n => p.freeOutput w' n node port) plain e' sc' sig) e s sig := by
  have hdn := dataOnly_of_nodeWithKind hn hd
  cases hrun with
  | @error err err' hrun ha =>
    refine .raise hf rfl (.ended rfl trivial ⟨⟨hq.holds, ?_, ?_⟩, .error ?_ ha⟩)
    · exact hq.keeps.ran hdn hm hnode rfl rfl rfl fun _ _ => rfl
    · exact hq.sound.later (.of_eq rfl rfl rfl) rfl fun _ _ => rfl
    · rw [hplain, hrun]
      rfl
  | @value v i hk hrun hst hfree =>
    -- nothing else has put outputs of the node meanwhile
    have hempty : s.scope.outputsOf node = [] := by
      rw [hq.keeps.outputs node (.inr (by simp [Scope.running, Scope.enter])), Scope.outputsOf_running,
        if_pos rfl]
    obtain ⟨os, hos⟩ : ∃ os, os = Engine.mergedOutputs k [] v := ⟨_, rfl⟩
    rw [← hos] at hrun hfree
    have hback : e.back { s with frames := frames } (.output node port serial) (.invoked v i) =
        (e.modifyNode serial fun n => { n with lastOutputs := os }).go
          { s with scope := s.scope.stored node os i.dependencies, frames := frames }
          (Engine.outputResult (s.scope.stored node os i.dependencies) node port i.dependencies) := by
      simp only [Engine.back, Engine.finishOutput, hk, hempty, ← hos, Scope.stored]
    have hholds : (e.modifyNode serial fun n => { n with lastOutputs := os }).Holds p st :=
      hq.holds.modifyNode serial (f := fun n => { n with lastOutputs := os }) fun _ => rfl
    have hq' := hq.stored hn hd hm hnode hw hst hfree hholds
    refine .back hf hback (settles_picked (s := { s with
      scope := s.scope.stored node os i.dependencies, frames := frames }) hn hp hd hq' ?_ ?_ hfree ?_)
    · rw [Scope.outputsOf_stored, if_pos rfl]
    · exact hst.congr rfl rfl
    · rw [hplain, hrun, Option.map_some]

end Output

/-! ## Resolving an output -/

/-- The bound on nested resolutions leaves room for all nodes of the graph. -/
def Program.Roomy (p : Program) : Prop :=
  ∀ n < p.graph.nodes.length, Value.related? .ge (.int n) p.config.maxPullDepth ≠ some true

theorem Program.Roomy.of_int {p : Program} {b : Int} (hb : p.config.maxPullDepth = .int b)
    (hle : p.graph.nodes.length ≤ b) : p.Roomy := by
  intro n hn
  have hlt : compare (n : Int) b = .lt := Int.compare_eq_lt.mpr (by omega)
  simp [hb, Value.related?, Value.relatedNumber?, Value.compareNumber, Value.asInt?, hlt, Relation.holds]

theorem Program.plainOutput_eq_output (p : Program) (w : World) (d : Nat) (path : List (String × String))
    (node port : String) : ∃ f, p.plainOutput w d path node port = p.output w f node port := by
  cases d with
  | zero => exact ⟨_, rfl⟩
  | succ d => exact ⟨_, rfl⟩

theorem Ready.unvisited_le {p : Program} {st : Variables} {w : World} {d : Nat} {e : Engine} {sc : Scope}
    (h : Ready p st w d e sc) : p.unvisited sc.path ≤ d := by
  have hlen := Program.unvisited_add_length_le h.nodup h.known
  have hdepth := h.depth
  omega

/-- A node of the graph that is not being resolved leaves room for its own resolution. -/
theorem Ready.room {p : Program} {st : Variables} {w : World} {d : Nat} {e : Engine} {sc : Scope}
    (h : Ready p st w d e sc) (hroom : p.Roomy) {node : String}
    (hn : ∃ m ∈ p.graph.nodes, m.id = node) (hres : sc.isResolving node = false) :
    e.atDepthBound sc = false ∧ ∃ d', d = d' + 1 := by
  rw [h.marked.isResolving_eq_any] at hres
  have hlt := Program.unvisited_append_lt "" hn hres
  have hlen := Program.unvisited_add_length_le h.nodup h.known
  have hle := h.unvisited_le
  have hconfig : p.config = e.config := by rw [← h.holds.program]; rfl
  refine ⟨?_, d - 1, by omega⟩
  have hne := hroom sc.path.length (by omega)
  rw [hconfig] at hne
  simpa [Engine.atDepthBound] using hne

/-- An output that cannot be resolved, whatever the data-only nodes yield. -/
theorem settles_refused {p : Program} {st : Variables} {w : World} (d : Nat) {e : Engine} {s : Strand}
    {node port : String} (err : Raised) (hq : Quiet p st s.scope e s.scope)
    (hout : ∀ f, p.output w f node port = some (.error err))
    (heq : e.call s (.output node port) = e.go s (.raise err)) :
    ResolvesOutput p st w d e s node port := by
  obtain ⟨f, hf⟩ := p.plainOutput_eq_output w d s.scope.path node port
  exact .call heq (.ended rfl trivial ⟨hq, .error (hf.trans (hout f)) (.refl err)⟩)

/-- An output of a node that does not only carry data. -/
theorem settles_published {p : Program} {st : Variables} {w : World} (d : Nat) {e : Engine} {s : Strand}
    {node port : String} {n : Node} {k : Kind Behavior} (hq : Quiet p st s.scope e s.scope)
    (hw : p.world st s.scope = w) (hn : e.nodeWithKind node = .ok (n, k))
    (hp : (k.outputPort port).isNone = false) (hd : k.dataOnly = false) :
    ResolvesOutput p st w d e s node port := by
  have hpn := hq.holds.nodeWithKind_ok hn
  have hdata : p.dataOnly node = false := by simp only [Program.dataOnly, hpn, hd]
  have hpub : w.published node port = (s.scope.outputsOf node).get? (.str port) := by
    rw [← hw]
    simp only [Program.world, hdata, Bool.false_eq_true, if_false]
  cases hv : (s.scope.outputsOf node).get? (.str port) with
  | none =>
    refine settles_refused d (.cause (.notProducedYet port node)) hq (fun f => ?_) ?_
    · simp only [Program.output, hpn, hp, hd, Bool.false_eq_true, if_false, Bool.not_false, if_true,
        hpub, hv]
    · simp only [Engine.call, Engine.pullOutput, hn, hp, hd, Bool.false_eq_true, if_false, Bool.not_false,
        if_true, hv]
  | some v =>
    have hout : ∀ w' f, w'.published node port = some v → p.output w' f node port = some (.ok v) := by
      intro w' f hw'
      simp only [Program.output, hpn, hp, hd, Bool.false_eq_true, if_false, Bool.not_false, if_true, hw']
    have heq : e.call s (.output node port) = e.go s (.back (.pulled v
        [(.output node (.str port), s.scope.epoch node (.str port))])) := by
      simp only [Engine.call, Engine.pullOutput, hn, hp, hd, Bool.false_eq_true, if_false, Bool.not_false,
        if_true, hv]
    obtain ⟨f, hf⟩ := p.plainOutput_eq_output w d s.scope.path node port
    refine .call heq (.ended rfl trivial ⟨hq, .value ?_ (fun x hx => ?_) fun w' hagree => ⟨0, ?_⟩⟩)
    · rw [hf, hout w f (hpub.trans hv)]
    · rw [List.mem_singleton.mp hx]
      exact ⟨⟨port, rfl⟩, rfl⟩
    · have hsame := hagree _ List.mem_cons_self port rfl
      exact hout w' _ (by rw [← hsame, hpub, hv])

/-- An output of a data-only node that is remembered, and still current. -/
theorem settles_recalled {p : Program} (hr : p.Reading) {st : Variables} {w : World} {d : Nat} {e : Engine}
    {s : Strand} {node port : String} {n : Node} {k : Kind Behavior} {ds : Dependencies}
    (h : Ready p st w d e s.scope) (hpath : p.Awaited w s.scope.path fun l => p.freeOutput w l node port)
    (hn : p.nodeWithKind node = .ok (n, k)) (hp : (k.outputPort port).isNone = false)
    (hd : k.dataOnly = true) (hc : s.scope.cached? node = some ds)
    (hcur : e.stillCurrent s.scope ds = true)
    (heq : e.call s (.output node port) = e.go s (Engine.outputResult s.scope node port ds)) :
    ResolvesOutput p st w d e s node port := by
  have hq : Quiet p st s.scope e s.scope := ⟨h.holds, .refl p _, h.sound⟩
  have hrec := h.sound node ds hc
  have hrun : ∀ w', w.Agree ds w' →
      ∃ n, p.free w' n node k = some (.ok (s.scope.outputsOf node)) := by
    intro w' hagree
    rw [← h.world, ← h.holds.store] at hagree
    obtain ⟨l, m', k', hn', hf⟩ := hrec.current hcur w' hagree
    obtain ⟨-, rfl⟩ := Prod.mk.inj (Except.ok.inj (hn.symm.trans hn'))
    exact ⟨l, hf⟩
  obtain ⟨l, hf⟩ := hrun w (.refl ds w)
  have hplain := Program.plainOutput_of_free hr l hn hp hd hf hpath h.unvisited_le
  refine .call heq (settles_picked hn hp hd hq rfl (fun x hx => ⟨(hrec.seen x hx).1, ?_⟩) hrun hplain)
  exact (stillCurrent_iff.mp hcur x hx).symm

theorem Runs.congr {p : Program} {w : World} {node : String} {k : Kind Behavior}
    {plain : Option (Except Raised Dict)} {e e' : Engine} {sc : Scope} {sig : Signal}
    (h : Runs p w node k plain e sc sig) (hs : e'.store = e.store) : Runs p w node k plain e' sc sig := by
  cases h with
  | value hk hplain hst hfree => exact .value hk hplain (hst.congr hs rfl) hfree
  | error hplain ha => exact .error hplain ha

/-- A scope is ready for the pulls of a node that has just begun to run. -/
theorem Ready.running {p : Program} {st : Variables} {w : World} {d : Nat} {e e' : Engine} {sc sc' : Scope}
    {node port : String} (h : Ready p st w (d + 1) e sc) (hd : p.dataOnly node = true)
    (hn : ∃ m ∈ p.graph.nodes, m.id = node) (hnode : node ∉ sc.path.map Prod.fst)
    (hq : Quiet p st (sc.running node port) e' sc') : Ready p st w d e' sc' := by
  have hpath : sc'.path = sc.path ++ [(node, port)] := hq.keeps.path
  refine ⟨hq.holds, hq.sound, ?_, ?_, ?_, fun x hx => ?_,
    (h.marked.enter node port).of_eq hq.keeps.path hq.keeps.resolving⟩
  · rw [hq.keeps.world_eq, world_running hd, h.world]
  · have hdepth := h.depth
    rw [hpath, List.length_append, List.length_singleton]
    omega
  · rw [hpath, List.map_append, List.nodup_append]
    refine ⟨h.nodup, List.nodup_singleton _, fun a ha b hb => ?_⟩
    rintro rfl
    rw [List.mem_singleton.mp hb] at ha
    exact hnode ha
  · rw [hpath] at hx
    rcases List.mem_append.mp hx with hx | hx
    · exact h.known x hx
    · rw [List.mem_singleton.mp hx]
      exact hn

/-- Those that wait for an output wait for what every free run of its node pulls. -/
theorem Program.Awaited.pulled {p : Program} (hr : p.Reading) {w : World} {path : List (String × String)}
    {node port q : String} {m : Node} {k : Kind Behavior} (hn : p.nodeWithKind node = .ok (m, k))
    (hp : (k.outputPort port).isNone = false) (hd : k.dataOnly = true)
    (h : p.Awaited w path fun l => p.freeOutput w l node port)
    (hpull : p.Needs w node k q) :
    p.Awaited w (path ++ [(node, port)]) fun l => p.input (p.freeOutput w l) node q := by
  intro x hx l hfin
  rcases List.mem_append.mp hx with hx | hx
  · obtain ⟨u, hu⟩ := h x hx l hfin
    obtain ⟨os, hos⟩ := free_of_freeOutput hn hp hd hu
    cases l with
    | zero => simp [free] at hos
    | succ l =>
      obtain ⟨v, hv⟩ := hpull l os hos
      exact ⟨v, input_mono hr (Nat.le_succ l) hv⟩
  · rw [List.mem_singleton.mp hx] at hfin
    obtain ⟨m', k', os, hn', hd', hf⟩ := hfin
    obtain ⟨-, rfl⟩ := Prod.mk.inj (Except.ok.inj (hn.symm.trans hn'))
    exact hpull l os hf

/-- The pulls of a node that runs for one of its outputs, where deeper outputs are resolved as plain
evaluation says. -/
theorem Ready.pulls {p : Program} (hr : p.Reading) {st : Variables} {w : World} {d : Nat}
    (ih : ∀ {e : Engine} {s : Strand} {node port : String}, Ready p st w d e s.scope →
      p.Awaited w s.scope.path (fun l => p.freeOutput w l node port) → ResolvesOutput p st w d e s node port)
    {e : Engine} {sc : Scope} {node port : String} {m : Node} {k : Kind Behavior}
    (h : Ready p st w (d + 1) e sc) (hpath : p.Awaited w sc.path fun l => p.freeOutput w l node port)
    (hn : p.nodeWithKind node = .ok (m, k)) (hp : (k.outputPort port).isNone = false)
    (hd : k.dataOnly = true) (hnode : node ∉ sc.path.map Prod.fst) :
    Pulls p st w (sc.running node port) node k (p.plainInput w d (sc.path ++ [(node, port)]) node) := by
  intro e' s' q hq hneed
  have hpath' : s'.scope.path = sc.path ++ [(node, port)] := hq.keeps.path
  have hready : Ready p st w d e' s'.scope :=
    h.running (dataOnly_of_nodeWithKind hn hd) (Program.hasNode_of_nodeWithKind hn) hnode hq
  have hawait := hpath.pulled hr hn hp hd hneed
  rw [← hpath'] at hawait ⊢
  have hres := settles_input ⟨hq.holds, .refl p _, hq.sound⟩ hawait fun _ _ => ih hready
  exact hres.mono fun e'' sc'' sig h' => ⟨⟨h'.1.holds, hq.keeps.trans h'.1.keeps, h'.1.sound⟩, h'.2⟩

/-- A data-only node runs for one of its outputs, where deeper outputs are resolved as plain evaluation
says. -/
theorem settles_run {p : Program} (hr : p.Reading) {st : Variables} {w : World} {d : Nat}
    (ih : ∀ {e : Engine} {s : Strand} {node port : String}, Ready p st w d e s.scope →
      p.Awaited w s.scope.path (fun l => p.freeOutput w l node port) → ResolvesOutput p st w d e s node port)
    {e : Engine} {s : Strand} {node port : String} {n : Node} {k : Kind Behavior}
    (h : Ready p st w (d + 1) e s.scope)
    (hpath : p.Awaited w s.scope.path fun l => p.freeOutput w l node port)
    (hn : e.nodeWithKind node = .ok (n, k)) (hp : (k.outputPort port).isNone = false)
    (hd : k.dataOnly = true) (hres : s.scope.isResolving node = false)
    (heq : e.call s (.output node port) = e.runForOutput s n k port) :
    ResolvesOutput p st w (d + 1) e s node port := by
  have hpn := h.holds.nodeWithKind_ok hn
  have hdn := dataOnly_of_nodeWithKind hpn hd
  have hnode : node ∉ s.scope.path.map Prod.fst := h.marked.isResolving_eq_false.mp hres
  rw [h.marked.isResolving_eq_any] at hres
  obtain rfl : n.id = node := Engine.id_of_nodeWithKind hn
  have hsound : ∀ {e' : Engine}, e'.Holds p st →
      Quiet p st (s.scope.running n.id port) e' (s.scope.running n.id port) := by
    intro e' hh
    have hq : Quiet p st (s.scope.running n.id port) e (s.scope.running n.id port) :=
      ⟨h.holds, .refl p _, h.sound.running hdn port⟩
    exact hq.of_eq hh rfl rfl rfl rfl rfl
  have hpull := h.pulls hr ih hpath hpn hp hd hnode
  have hinvoke : ∀ (e' : Engine) (s' : Strand), Quiet p st (s.scope.running n.id port) e' s'.scope →
      Settles p st s'.frames (fun e'' sc'' sig => Quiet p st (s.scope.running n.id port) e'' sc'' ∧ Runs p w n.id k
        (Program.run w (p.plainInput w d (s.scope.path ++ [(n.id, port)]) n.id) n.id k) e'' sc'' sig)
        e' s' (.call (.invoke { serial := n.serial, node := n.id, kind := k, mode := .pull })) :=
    fun e' s' hq => settles_invoke hr hpn hd (congrArg World.values h.world) hpull rfl rfl hq rfl
  have hplain := Program.plainOutput_run w d hpn hp hd hres
  have hcases := e.runForOutput_cases s n k port
  generalize e.runForOutput s n k port = t at hcases heq
  cases hcases with
  | hops =>
    -- the run has a task of its own, and pauses before and after it
    refine .pause (.call s _) heq fun e₁ hold => ?_
    have hrun := hinvoke e₁ ⟨s.id, _, .hop :: .output n.id port n.serial :: s.frames⟩ (hsound hold)
    refine (hrun.hop fun e' e'' sc' sig h' hold' => ⟨?_, ?_⟩).under fun e' s' sig hf _ h' => ?_
    · exact h'.1.of_eq hold' rfl rfl rfl rfl rfl
    · exact h'.2.congr (hold'.store.trans h'.1.holds.store.symm)
    · exact settles_ran hpn hd hp h.marked hnode h.world hf h'.1 h'.2 hplain
  | nests =>
    have hrun := hinvoke e ⟨s.id, _, .output n.id port n.serial :: s.frames⟩ (hsound h.holds)
    refine .call heq (Settles.under hrun fun e' s' sig hf _ h' => ?_)
    exact settles_ran hpn hd hp h.marked hnode h.world hf h'.1 h'.2 hplain

/-- Resolving an output ends as plain evaluation does. -/
theorem settles_output {p : Program} (hr : p.Reading) (hroom : p.Roomy) {st : Variables} {w : World} :
    ∀ (d : Nat) {e : Engine} {s : Strand} {node port : String}, Ready p st w d e s.scope →
      p.Awaited w s.scope.path (fun l => p.freeOutput w l node port) →
      ResolvesOutput p st w d e s node port := by
  intro d
  induction d using Nat.strong_induction_on with
  | _ d ih =>
    intro e s node port h hpath
    have hq : Quiet p st s.scope e s.scope := ⟨h.holds, .refl p _, h.sound⟩
    have hsome {k : Kind Behavior} (hport : k.outputPort port ≠ none) : (k.outputPort port).isNone = false :=
      Option.isNone_eq_false_iff.mpr (Option.isSome_iff_ne_none.mpr hport)
    have hcases := e.pullOutput_cases s node port
    generalize heq : e.pullOutput s node port = t at hcases
    cases hcases with
    | @unknown err hn =>
      refine settles_refused d err hq (fun f => ?_) heq
      simp only [Program.output, hq.holds.nodeWithKind_error hn]
    | @portless n k hn hport =>
      refine settles_refused d (.cause (.nodeHasNoOutput node k.id port)) hq (fun f => ?_) heq
      simp only [Program.output, hq.holds.nodeWithKind_ok hn, hport, Option.isNone_none, if_true]
    | published hn hport hd => exact settles_published d hq h.world hn (hsome hport) hd
    | unpublished hn hport hd => exact settles_published d hq h.world hn (hsome hport) hd
    | current hn hport hd hds =>
      obtain ⟨hcached, hcur⟩ := Option.filter_eq_some_iff.mp hds
      exact settles_recalled hr h hpath (hq.holds.nodeWithKind_ok hn) (hsome hport) hd hcached hcur heq
    | circular hn hport hd _ hbusy =>
      refine .call heq (.ended rfl trivial ⟨hq, .error ?_ (.refl _)⟩)
      rw [h.marked.isResolving_eq_any] at hbusy
      exact Program.plainOutput_cyclic w d (hq.holds.nodeWithKind_ok hn) (hsome hport) hd hbusy
    | deep hn _ _ _ hidle hfull =>
      -- a program that is roomy enough never refuses a resolution for its depth
      obtain ⟨hbound, -⟩ := h.room hroom (Program.hasNode_of_nodeWithKind (hq.holds.nodeWithKind_ok hn)) hidle
      rw [hbound] at hfull
      cases hfull
    | runs hn hport hd _ hidle =>
      obtain ⟨-, d', rfl⟩ := h.room hroom (Program.hasNode_of_nodeWithKind (hq.holds.nodeWithKind_ok hn)) hidle
      exact settles_run hr (ih d' (Nat.lt_succ_self d')) h hpath hn (hsome hport) hd hidle heq

/-! ## Pulls in a trigger -/

/-- The states of a trigger between its pulls: it begins with an empty scope; outputs of nodes that do not
only carry data are published, variables are written, inputs are pulled, and other triggers do what is
no change of the program or the variables. -/
inductive History (p : Program) : Engine → Scope → Prop
  | start {e : Engine} (trigger : Nat) (hp : e.program = p) (hs : Variables.Wrote {} e.store) :
      History p e { trigger := trigger }
  | publish {e : Engine} {sc : Scope} (h : History p e sc) {node : String}
      (hn : p.dataOnly node = false) (port v : Value) : History p e (sc.publish node port v)
  | write {e e' : Engine} {sc : Scope} (h : History p e sc) (hp : e'.program = p)
      (hw : Variables.Write e.store e'.store) : History p e' sc
  | others {e e' : Engine} {sc : Scope} (h : History p e sc) (hh : e'.Holds p e.store) (executed : Nat) :
      History p e' { sc with executed := executed }
  | pull {e e' : Engine} {s : Strand} {sc' : Scope} {node port : String} {sig : Signal}
      (h : History p e s.scope)
      (hr : Resolution p e.store s.frames e s (.call (.input node port)) e' sc' sig) : History p e' sc'

/-- Whether a pull has ended as an evaluation did: with its value, or with an error of the same name. -/
def Signal.Matches (sig : Signal) : Except Raised Value → Prop
  | .ok v => ∃ ds, sig = .back (.pulled v ds)
  | .error err => ∃ err', sig = .raise err' ∧ err'.name = err.name

/-- Pulling an input outside any resolution. -/
theorem settles_pull {p : Program} (hr : p.Reading) (hroom : p.Roomy) {d : Nat}
    (hd : p.graph.nodes.length ≤ d) {e : Engine} {s : Strand} (hp : e.program = p)
    (hpath : s.scope.path = []) (hmarks : s.scope.resolving = []) (hsound : Sound p e s.scope) (node port : String) :
    ResolvesInput p e.store (p.world e.store s.scope) s.scope
      (p.plainInput (p.world e.store s.scope) d [] node port) e s node port := by
  have hholds : e.Holds p e.store := ⟨hp, rfl⟩
  have hready : Ready p e.store (p.world e.store s.scope) d e s.scope := by
    refine ⟨hholds, hsound, rfl, ?_, ?_, ?_, .nil hpath hmarks⟩
    · omega
    · rw [hpath]; exact List.nodup_nil
    · rw [hpath]; simp
  have hawait : ∀ f, p.Awaited (p.world e.store s.scope) s.scope.path f := by
    intro f x hx
    rw [hpath] at hx
    simp at hx
  rw [← hpath]
  exact settles_input ⟨hholds, .refl p _, hsound⟩ (hawait _) fun _ _ => settles_output hr hroom d hready

theorem History.invariant {p : Program} (hr : p.Reading) (hroom : p.Roomy) {e : Engine} {sc : Scope}
    (h : History p e sc) :
    e.program = p ∧ e.store.Counted ∧ sc.path = [] ∧ sc.resolving = [] ∧ Sound p e sc := by
  induction h with
  | start trigger hp hs =>
    refine ⟨hp, hs.counted (.initial []), rfl, rfl, fun node ds hc => ?_⟩
    simp [Scope.cached?] at hc
  | @publish e sc h node hn port v ih =>
    obtain ⟨hp, hc, hpath, hmarks, hsound⟩ := ih
    refine ⟨hp, hc, hpath, hmarks, hsound.later (.publish p e sc node port v) rfl fun other ho => ?_⟩
    rw [Scope.outputsOf_publish, if_neg]
    rintro rfl
    rw [hn] at ho
    exact Bool.false_ne_true ho
  | write h hp hw ih =>
    obtain ⟨_, hc, hpath, hmarks, hsound⟩ := ih
    exact ⟨hp, hw.counted hc, hpath, hmarks, hsound.later (.write hc _ hw) rfl fun _ _ => rfl⟩
  | others h hh executed ih =>
    obtain ⟨hp, hc, hpath, hmarks, hsound⟩ := ih
    refine ⟨hh.program, hh.store ▸ hc, hpath, hmarks, ?_⟩
    exact hsound.later (.of_eq hh.store rfl (by rw [hh.store]; rfl)) rfl fun _ _ => rfl
  | pull h hres ih =>
    obtain ⟨hp, hc, hpath, hmarks, hsound⟩ := ih
    have hq := ((settles_pull hr hroom le_rfl hp hpath hmarks hsound _ _).resolution hres).1
    exact ⟨hq.holds.program, hq.holds.store ▸ hc, hq.keeps.path.trans hpath,
      hq.keeps.resolving.trans hmarks, hq.sound⟩

/-- A behaviour that hands on its input. -/
def relayed : Behavior := fun _ => Action.toScript (Action.pull "in")

theorem relayed_reads : (relayed .null).Reads relayed :=
  .pull "in" _ (fun v => .finish v) fun _ => rfl

/-- A clock that publishes, a relay that carries data only, and a display that is fed by the relay. -/
def relayProgram : Program where
  config := {}
  registry := {
    kinds := [.sketch "clock" .statement [] [Library.yields "value" .any] none,
      .sketch "relay" .expression [{ id := "in" }] [Library.yields "value" .any] (some relayed),
      .sketch "display" .statement [{ id := "in" }] [] none] }
  graph := {
    nodes := [{ serial := 0, id := "c", kind := "clock" }, { serial := 1, id := "r", kind := "relay" },
      { serial := 2, id := "d", kind := "display" }]
    edges := [⟨"c", "value", "r", "in"⟩, ⟨"r", "value", "d", "in"⟩] }

/-- Reads a variable. While it is one, the behaviour lets others run and pulls its input before it ends. -/
def lingering : Behavior := fun _ => .ask (.readVariable "x") fun r => match r with
  | .ok (some (.int 1)) => .wait .checkpoint fun _ => .wait (.pull "in") fun v => match v with
    | .ok _ => .finish (.dict [(.str "value", .int 1)])
    | .error err => .fail err
  | .ok v => .finish (.dict [(.str "value", v.getD .null)])
  | .error err => .fail err

theorem lingering_reads : (lingering .null).Reads lingering := by
  refine .readVariable "x" _ fun v => ?_
  split
  · exact .checkpoint _ (.pull "in" _ (fun _ => .finish _) fun _ => rfl) rfl
  · exact .finish _
  · exact .fail _

/-- A data-only node with an edge of control flow, whose output a relay hands back to it and a display shows. Another
start node writes the variable. -/
def lingerProgram : Program where
  config := {}
  registry := {
    kinds := [.sketch "event.start" .event [] [Library.leads "exec"] none,
      .sketch "drift" .expression [{ id := "in" }] [Library.yields "value" .any] (some lingering),
      .sketch "relay" .expression [{ id := "in" }] [Library.yields "value" .any] (some relayed),
      .sketch "display" .statement [{ id := "in" }] [] (some relayed),
      .sketch "write" .statement [] [] (some fun _ => .ask (.setVariable "x" (.int 2)) fun _ => .finish .null)] }
  graph := {
    nodes := [{ serial := 0, id := "s", kind := "event.start" }, { serial := 1, id := "d", kind := "drift" },
      { serial := 2, id := "r", kind := "relay" }, { serial := 3, id := "m", kind := "display" },
      { serial := 4, id := "z", kind := "event.start" }, { serial := 5, id := "w", kind := "write" }]
    edges := [⟨"s", "exec", "d", "exec"⟩, ⟨"s", "exec", "m", "exec"⟩, ⟨"z", "exec", "w", "exec"⟩,
      ⟨"d", "value", "r", "in"⟩, ⟨"r", "value", "d", "in"⟩, ⟨"d", "value", "m", "in"⟩]
    nextSerial := 6 }

theorem lingerProgram_reading : lingerProgram.Reading := by
  intro k hk hd b hb
  simp only [lingerProgram, List.mem_cons, List.not_mem_nil, or_false] at hk
  rcases hk with rfl | rfl | rfl | rfl | rfl
  · cases hd
  · obtain rfl := Option.some.inj hb
    exact lingering_reads
  · obtain rfl := Option.some.inj hb
    exact relayed_reads
  · cases hd
  · cases hd

/-- The state after a number of steps of a session that sets the variable to one and runs that graph. -/
def lingered (n : Nat) : Engine.Turn :=
  (follow n (opening (.initial lingerProgram.config lingerProgram.registry lingerProgram.graph 0.01)
    [.command (.setVariable "x" (.int 1)), .run], fun _ => {})).1

theorem plainInput_linger {w : World} (h : w.values.get? "x" = some (.int 2)) :
    lingerProgram.plainInput w 6 [] "m" "in" = some (.ok (.int 2)) := by
  obtain ⟨n, k, hn, hin⟩ : ∃ n k, lingerProgram.nodeWithKind "m" = .ok (n, k) ∧
      k.dataInput "in" = some { id := "in" } := by
    with_unfolding_all exact ⟨_, _, rfl, rfl⟩
  obtain ⟨n', k', hn', hout, hdata, hb⟩ : ∃ n k, lingerProgram.nodeWithKind "d" = .ok (n, k) ∧
      (k.outputPort "value").isNone = false ∧ k.dataOnly = true ∧ k.behavior = some lingering := by
    with_unfolding_all exact ⟨_, _, rfl, rfl, rfl, rfl⟩
  have hx : lingerProgram.graph.incoming? "m" "in" = some ⟨"d", "value", "m", "in"⟩ := by decide +kernel
  have houtcome : ∀ f, (lingering .null).outcome lingering w.values f =
      some (.ok (.dict [(.str "value", .int 2)])) := by
    intro f
    rw [lingering, Script.outcome, h]
    show Script.outcome lingering w.values f (.finish (.dict [(.str "value", .int 2)])) = _
    rw [Script.outcome]
  rw [Program.plainInput, Program.input, hn]
  simp only [hin, hx]
  rw [Program.plainOutput, Program.output_of_dataOnly hn' hout hdata]
  simp [Program.run, hb, houtcome, Engine.mergedOutputs, Program.pick]
  with_unfolding_all rfl

/-- The integer that a value is, if it is one. -/
def Value.int? : Value → Option Int
  | .int n => some n
  | _ => none

theorem Value.eq_of_int? {v : Value} {n : Int} (h : v.int? = some n) : v = .int n := by
  unfold int? at h
  split at h
  · exact congrArg Value.int (Option.some.inj h)
  · cases h

/-- The input that a signal asks for. -/
def Signal.input? : Signal → Option (String × String)
  | .call (.input node port) => some (node, port)
  | _ => none

theorem Signal.eq_of_input? {sig : Signal} {node port : String} (h : sig.input? = some (node, port)) :
    sig = .call (.input node port) := by
  unfold input? at h
  split at h
  · obtain ⟨rfl, rfl⟩ := Prod.mk.inj (Option.some.inj h)
    rfl
  · cases h

/-- What a signal brings from a pull. -/
def Signal.pulled? : Signal → Option Value
  | .back (.pulled v _) => some v
  | _ => none

theorem Signal.eq_of_pulled? {sig : Signal} {v : Value} (h : sig.pulled? = some v) :
    ∃ ds, sig = .back (.pulled v ds) := by
  unfold pulled? at h
  split at h
  · obtain rfl := Option.some.inj h
    exact ⟨_, rfl⟩
  · cases h

/-- Whether the strand under way carries out a command. -/
def Engine.Turn.commands (t : Engine.Turn) : Bool :=
  match t.next with
  | some (_, .call (.request (.command _))) => true
  | some (_, .call (.behave _ (.edit _ _))) => true
  | _ => false

theorem Engine.Turn.not_carries_of_commands {t : Engine.Turn} (h : t.commands = false) {s : Strand} {sig : Signal}
    (hn : t.next = some (s, sig)) (c : Command) : ¬sig.Carries c := by
  rintro (rfl | ⟨i, k, rfl⟩) <;> simp [commands, hn] at h

theorem program_lingered {k : Nat} (hk : 1 ≤ k) (hk' : k ≤ 46) : (lingered k).engine.program = lingerProgram := by
  have hgoes : ∀ l < 46, (Engine.advance (lingered l)).isSome = true := by decide +kernel
  have hcommands : ∀ l < 46, 1 ≤ l → (lingered l).commands = false := by decide +kernel
  have hplays : ∀ l < k, Play (lingered l) (lingered (l + 1)) :=
    fun l hl => .of_advance (advance_follow (hgoes l (hl.trans_le hk')))
  exact program_run hplays hk fun l hl hlk _ _ hn =>
    Engine.Turn.not_carries_of_commands (hcommands l (hlk.trans_le hk') hl) hn

/-- Whether a step neither writes a variable nor publishes anything in the middle of a resolution. -/
def Engine.Turn.LeavesAlone (t t' : Engine.Turn) : Prop :=
  ∀ x ∈ t.population, x.1.scope.path ≠ [] → t'.engine.store.version = t.engine.store.version ∧
    ∀ y ∈ t'.population, y.1.id = x.1.id → y.1.scope.epochs.map Prod.snd = x.1.scope.epochs.map Prod.snd

instance (t t' : Engine.Turn) : Decidable (t.LeavesAlone t') :=
  inferInstanceAs (Decidable (∀ x ∈ t.population, _ → _ ∧ ∀ y ∈ t'.population, _ → _))

end Patchbay
