import Patchbay.Proofs.Validity

/-!
# Behaviours that abide by their declarations

A behaviour abides by the declaration of its kind when it pulls declared data inputs only, continues control flow
along declared control flow outputs only, hands on the errors of both, and states no error itself that a check of
the graph is to rule out. In a trigger of a program without issues, such behaviours meet few errors: those they
state, faults, a bound on the depth of data, and outputs that have not been produced.

Data is pulled along edges, and only nodes that only carry data are being resolved while others wait for them. Each
of those waits for the next one, so a node that is being resolved and is pulled from again would be on a cycle.

Contents:
* `Script.Abides`: behaviours that abide by a declaration.
* `Program.Regular`: a program without issues, of behaviours that abide by their declarations.
* `Lawful`: the frames of a trigger in progress; `Upright`: what its strand does next.

Results:
* `Lawful.draws_of_mem`: the nodes being resolved wait for what is asked last.
* `Upright.turn`: a strand stays upright, or ends its trigger.
-/

namespace Patchbay

/-! ## Errors -/

/-- The families of the errors that a check of a graph is to rule out. -/
def Family.checked : List Family := [.cyclicDependency, .unknownKind, .nodeNotFound, .portNotFound, .missingLiteral]

/-- Whether a cause is none that a check of a graph is to rule out. -/
def Cause.Free (c : Cause) : Prop := c.family ∉ Family.checked

/-- Whether a cause is that an output of a node was not produced, and the scope has none there. -/
def Scope.Lacks (sc : Scope) (c : Cause) : Prop :=
  ∃ node port, (sc.outputsOf node).get? (.str port) = none ∧ (c = .notProducedYet port node ∨ c = .notProduced node port)

/-- Whether an error has one of the given causes, or is a fault. -/
def Raised.Within (B : Cause → Prop) : Raised → Prop
  | .failure f => B f.cause
  | .fault _ | .mute _ => True

/-- Whether the errors of a computation are faults. -/
def OnlyFaults {α : Type} (x : Except Raised α) : Prop := ∀ err, x = .error err → ∃ f, err = .fault f

section Errors

variable {α : Type} {B B' : Cause → Prop} {err : Raised}

theorem Raised.Within.mono (h : err.Within B) (hB : ∀ c, B c → B' c) : err.Within B' := by
  cases err with
  | failure f => exact hB _ h
  | fault f => trivial
  | mute f => trivial

theorem OnlyFaults.ok (a : α) : OnlyFaults (.ok a) := by
  intro err h
  cases h

theorem OnlyFaults.lift (x : Except Fault α) : OnlyFaults (Fault.lift x) := by
  intro err h
  cases x with
  | ok a => cases h
  | error f => exact ⟨f, (Except.error.inj h).symm⟩

theorem Engine.onlyFaults_perform (e : Engine) (i : Invocation) (sc : Scope) (q : Query) :
    OnlyFaults (e.perform i sc q).reply := by
  cases q with
  | every | fireLater | listen | cancelOwn => exact .lift _
  | _ => exact .ok _

/-- An error that ends an invocation keeps its cause; a fault becomes an error of the behaviour. -/
theorem Raised.Within.atInvocation (h : err.Within B) (hfree : ∀ c : Cause, c.Free → B c) (T : Nat) (i : Invocation) :
    B (err.atInvocation T i).cause := by
  cases err with
  | failure f =>
    rw [Raised.atInvocation, Failure.cause_inTrigger, Failure.cause_atNode]
    exact h
  | fault f | mute f => exact hfree _ (by simp [Cause.Free, Family.checked, Raised.atInvocation, Cause.family])

theorem Raised.Within.passed (h : err.Within B) : err.passed.Within B := by
  cases err with
  | failure f => exact h
  | fault f | mute f => trivial

end Errors

/-! ## Behaviours -/

/-- A script that abides by the declaration of a kind: it pulls data inputs of the kind and continues along control
flow outputs of the kind, and hands on the errors of both. The causes of its own errors are among the given
ones. -/
inductive Script.Abides (B : Cause → Prop) (kind : Kind Behavior) : Script → Prop
  | finish (v : Value) : Abides B kind (.finish v)
  | fail {err : Raised} (h : err.Within B) : Abides B kind (.fail err)
  | again (state : Value) : Abides B kind (.again state)
  | ask {q : Query} {k : Except Raised q.Reply → Script} (h : ∀ r, OnlyFaults r → Abides B kind (k r)) :
      Abides B kind (.ask q k)
  | edit {c : Command} {k : Except Raised Answer → Script} (h : ∀ e : Engine, Abides B kind (k (e.command c).1)) :
      Abides B kind (.edit c k)
  | pause {w : Wait} {k : Except Raised w.Reply → Script} (hw : w.nests = false)
      (h : ∀ r, OnlyFaults r → Abides B kind (k r)) : Abides B kind (.wait w k)
  | pull {port : String} {k : Except Raised Value → Script} (hport : ∃ q ∈ kind.dataInputs, q.id = port)
      (hok : ∀ v, Abides B kind (k (.ok v))) (herr : ∀ err, (k (.error err)).Passes err) :
      Abides B kind (.wait (.pull port) k)
  | advance {port : String} {k : Except Raised Unit → Script} (hport : ∃ q ∈ kind.execOutputs, q.id = port)
      (hok : ∀ u, Abides B kind (k (.ok u))) (herr : ∀ err, (k (.error err)).Passes err) :
      Abides B kind (.wait (.advance port) k)

section Scripts

variable {B B' : Cause → Prop} {kind : Kind Behavior}

theorem Script.Abides.mono {s : Script} (h : s.Abides B kind) (hB : ∀ c, B c → B' c) : s.Abides B' kind := by
  induction h with
  | finish v => exact .finish v
  | fail herr => exact .fail (herr.mono hB)
  | again state => exact .again state
  | ask _ ih => exact .ask ih
  | edit _ ih => exact .edit ih
  | pause hw _ ih => exact .pause hw ih
  | pull hport _ herr ih => exact .pull hport ih herr
  | advance hport _ herr ih => exact .advance hport ih herr

/-- A script that ends with an error that it was told. -/
theorem Script.Passes.abides {err : Raised} (herr : err.Within B) {s : Script} (h : s.Passes err) : s.Abides B kind := by
  induction h with
  | fail => exact .fail herr
  | ask _ ih => exact .ask fun r _ => ih r
  | edit _ ih => exact .edit fun e => ih _
  | pause hw _ ih => exact .pause hw fun r _ => ih r

theorem Script.Abides.of_ok {w : Wait} {k : Except Raised w.Reply → Script} (h : (Script.wait w k).Abides B kind)
    (a : w.Reply) : (k (.ok a)).Abides B kind := by
  cases h with
  | pause _ hk => exact hk _ (.ok a)
  | pull _ hok _ => exact hok a
  | advance _ hok _ => exact hok a

/-- The error of what a script waits for ends it. -/
theorem Script.Abides.passes {w : Wait} {k : Except Raised w.Reply → Script} (h : (Script.wait w k).Abides B kind)
    (hw : w.level ≠ .pause) (err : Raised) : (k (.error err)).Passes err := by
  cases h with
  | pull _ _ hpass => exact hpass err
  | advance _ _ hpass => exact hpass err
  | pause hnests _ =>
    cases w with
    | pull | advance => cases hnests
    | checkpoint | sleep => exact absurd rfl hw

end Scripts

/-! ## Programs -/

/-- A program without issues, of behaviours that abide by their declarations. -/
structure Program.Regular (p : Program) : Prop where
  checked : p.Checked
  shaped : ∀ k, p.Uses k → k.Shaped
  distinct : ∀ k, p.Uses k → (k.inputs.map Port.id).Nodup ∧ (k.outputs.map Port.id).Nodup
  abides : ∀ k, p.Uses k → ∀ b, k.behavior = some b → ∀ state, (b state).Abides Cause.Free k

namespace Program

variable {p : Program} {e : Engine}

theorem Runs.uses {i : Invocation} (h : p.Runs i) : p.Uses i.kind := by
  obtain ⟨n, hn, -⟩ := h
  exact ⟨i.node, n, hn⟩

/-- An engine finds what its program has. -/
theorem nodeWithKind_of_program (hp : e.program = p) {id : String} {n : Node} {k : Kind Behavior}
    (h : p.nodeWithKind id = .ok (n, k)) : ∃ m, e.nodeWithKind id = .ok (m, k) ∧ m.bare = n := by
  obtain ⟨err, -, herr⟩ | ⟨m, l, hm, hbare⟩ := e.nodeWithKind_cases hp id
  · rw [h] at herr
    cases herr
  · obtain ⟨rfl, rfl⟩ := Prod.mk.inj (Except.ok.inj (h.symm.trans hbare))
    exact ⟨m, hm, rfl⟩

/-- Whether an input is a data input of its node. -/
def Takes (p : Program) (node port : String) : Prop :=
  ∃ n k, p.nodeWithKind node = .ok (n, k) ∧ ∃ q ∈ k.dataInputs, q.id = port

/-- Whether an output is one of its node, and `asker` draws from the node if it only carries data. -/
def Gives (p : Program) (asker node port : String) : Prop :=
  ∃ n k, p.nodeWithKind node = .ok (n, k) ∧ (k.outputPort port).isSome = true ∧
    (k.dataOnly = true → Draws (p.graph.pulls p.registry) asker node)

/-- What an edge carries. -/
theorem Regular.gives (h : p.Regular) {x : Edge} (hx : x ∈ p.graph.edges) : p.Gives x.dest x.source x.sourcePort := by
  obtain ⟨n, k, hk, hport⟩ := h.checked.sources x hx
  exact ⟨n, k, hk, hport, fun hd => Checked.draws hx hk (h.shaped k ⟨_, _, hk⟩) hd⟩

end Program

/-! ## Frames -/

/-- The frames of a trigger in progress, by what they wait for. For frames that wait for a value, a pause or an
invocation, the node is the one that waits or is invoked. -/
inductive Lawful (p : Program) (B : Cause → Prop) : Level → String → List Frame → Prop
  | trigger {u node : String} {origin : Origin} {fs : List Frame} (h : ∀ f ∈ fs, f.Outer) :
      Lawful p B .flow u (.trigger node origin :: fs)
  | behavior {i : Invocation} {w : Wait} {k : Except Raised w.Reply → Script} {fs : List Frame}
      (hi : p.Runs i) (hk : (Script.wait w k).Abides B i.kind) (h : Lawful p B .invocation i.node fs) :
      Lawful p B w.level i.node (.behavior i w k :: fs)
  | walk {u v : String} {agenda : List String} {fs : List Frame} (ha : p.Knows agenda) (h : Lawful p B .flow v fs) :
      Lawful p B .invocation u (.walk agenda :: fs)
  | output {u node port : String} {serial : Nat} {fs : List Frame} (hd : p.dataOnly node = true)
      (hdraws : Draws (p.graph.pulls p.registry) u node) (h : Lawful p B .value u fs) :
      Lawful p B .invocation node (.output node port serial :: fs)
  | hop {u node port : String} {serial : Nat} {fs : List Frame} (hd : p.dataOnly node = true)
      (hdraws : Draws (p.graph.pulls p.registry) u node) (h : Lawful p B .value u fs) :
      Lawful p B .invocation node (.hop :: .output node port serial :: fs)

/-- A declared control flow output is found by its id. -/
theorem Kind.execOutput_of_mem {k : Kind Behavior} (hd : (k.outputs.map Port.id).Nodup) {q : Port}
    (hq : q ∈ k.execOutputs) : k.execOutput q.id = some q := by
  obtain ⟨hmem, hexec⟩ := List.mem_filter.mp hq
  rw [Kind.execOutput, Kind.outputPort, find?_of_nodup hd hmem]
  simpa using hexec

/-- A literal that is there is found. -/
theorem Named.get?_of_has {d : Named} {port : String} (h : d.has port = true) : ∃ v, d.get? port = some v := by
  obtain ⟨x, hx, hname⟩ := List.any_eq_true.mp h
  obtain ⟨name, w⟩ := x
  obtain rfl : name = port := beq_iff_eq.mp hname
  cases hfound : List.lookup name d with
  | some v => exact ⟨v, hfound⟩
  | none => simpa using List.lookup_eq_none_iff.mp hfound _ hx

section Frames

variable {p : Program} {B B' : Cause → Prop} {l : Level} {u : String} {fs : List Frame} {nodes : List String}
  {as : List Account}

theorem Lawful.mono (h : Lawful p B l u fs) (hB : ∀ c, B c → B' c) : Lawful p B' l u fs := by
  induction h with
  | trigger hout => exact .trigger hout
  | behavior hi hk _ ih => exact .behavior hi (hk.mono hB) ih
  | walk ha _ ih => exact .walk ha ih
  | output hd hdraws _ ih => exact .output hd hdraws ih
  | hop hd hdraws _ ih => exact .hop hd hdraws ih

/-- A node that only carries data does not continue control flow. -/
theorem Program.Regular.not_advances (hr : p.Regular) {i : Invocation} (hi : p.Runs i) (hd : p.dataOnly i.node = true)
    {port : String} {k : Except Raised Unit → Script} : ¬(Script.wait (.advance port) k).Abides B i.kind := by
  intro hk
  cases hk with
  | pause hw _ => cases hw
  | advance hport _ _ =>
    obtain ⟨q, hq, -⟩ := hport
    obtain ⟨hout, hexec⟩ := List.mem_filter.mp hq
    obtain ⟨n, hn, -⟩ := hi
    have hdata : i.kind.dataOnly = true := by simpa [Program.dataOnly, hn] using hd
    rw [hr.shaped i.kind ⟨_, _, hn⟩ hdata q hout] at hexec
    cases hexec

/-- No node is being resolved below control flow. Elsewhere the nodes being resolved wait, through others, for the
one that waits or is invoked now, which only carries data if there are any. -/
theorem Lawful.draws (hr : p.Regular) (h : Lawful p B l u fs) (hs : Stacked l fs nodes as) :
    (l = .flow → nodes = []) ∧ (l ≠ .flow →
      (∀ m ∈ nodes, Relation.ReflTransGen (Draws (p.graph.pulls p.registry)) m u) ∧
        (nodes ≠ [] → p.dataOnly u = true)) := by
  have hempty {u : String} : (∀ m ∈ ([] : List String), Relation.ReflTransGen (Draws (p.graph.pulls p.registry)) m u) ∧
      (([] : List String) ≠ [] → p.dataOnly u = true) := ⟨List.forall_mem_nil _, fun hne => absurd rfl hne⟩
  -- a node on top of the ones that are being resolved
  have hpush {u node : String} {nodes : List String} (hd : p.dataOnly node = true)
      (hdraws : Draws (p.graph.pulls p.registry) u node)
      (hrest : ∀ m ∈ nodes, Relation.ReflTransGen (Draws (p.graph.pulls p.registry)) m u) :
      (∀ m ∈ node :: nodes, Relation.ReflTransGen (Draws (p.graph.pulls p.registry)) m node) ∧
        (node :: nodes ≠ [] → p.dataOnly node = true) :=
    ⟨List.forall_mem_cons.mpr ⟨.refl, fun m hm => (hrest m hm).tail hdraws⟩, fun _ => hd⟩
  induction h generalizing nodes as with
  | trigger _ =>
    cases hs with
    | trigger _ => exact ⟨fun _ => rfl, fun hne => absurd rfl hne⟩
  | @behavior i w k fs hi hk _ ih =>
    cases w with
    | pull port =>
      cases hs with
      | pull _ hs => exact ⟨nofun, fun _ => (ih hs).2 nofun⟩
    | checkpoint =>
      cases hs with
      | checkpoint _ hs => exact ⟨nofun, fun _ => (ih hs).2 nofun⟩
    | sleep seconds =>
      cases hs with
      | sleep _ hs => exact ⟨nofun, fun _ => (ih hs).2 nofun⟩
    | advance port =>
      cases hs with
      | advance _ hs =>
        refine ⟨fun _ => ?_, fun hne => absurd rfl hne⟩
        by_contra hne
        exact hr.not_advances hi (((ih hs).2 nofun).2 hne) hk
  | walk _ _ ih =>
    cases hs with
    | walk hs =>
      obtain rfl := (ih hs).1 rfl
      exact ⟨nofun, fun _ => hempty⟩
  | output hd hdraws _ ih =>
    cases hs with
    | output hs => exact ⟨nofun, fun _ => hpush hd hdraws ((ih hs).2 nofun).1⟩
  | hop hd hdraws _ ih =>
    cases hs with
    | hop hs => exact ⟨nofun, fun _ => hpush hd hdraws ((ih hs).2 nofun).1⟩

/-- The nodes being resolved wait, through others, for the node that asks for a value now. -/
theorem Lawful.draws_of_mem (hr : p.Regular) (h : Lawful p B .value u fs) (hs : Stacked .value fs nodes as) {m : String}
    (hm : m ∈ nodes) : Relation.ReflTransGen (Draws (p.graph.pulls p.registry)) m u :=
  ((h.draws hr hs).2 nofun).1 m hm

end Frames

/-! ## Strands -/

/-- What a strand inside a trigger does next. An error on its way has one of the causes `B`, or it is about an
output that its scope lacks. -/
inductive Upright (p : Program) (B : Cause → Prop) (sc : Scope) (fs : List Frame) : Parked → Prop
  | walks {u : String} {agenda : List String} (ha : p.Knows agenda) (h : Lawful p B .flow u fs) :
      Upright p B sc fs (.turn (.call (.walk agenda)))
  | walked {u : String} {r : Result} (h : Lawful p B .flow u fs) : Upright p B sc fs (.turn (.back r))
  | invokes {i : Invocation} (hi : p.Runs i) (h : Lawful p B .invocation i.node fs) :
      Upright p B sc fs (.turn (.call (.invoke i)))
  | behaves {i : Invocation} {script : Script} (hi : p.Runs i) (hs : script.Abides B i.kind)
      (h : Lawful p B .invocation i.node fs) : Upright p B sc fs (.turn (.call (.behave i script)))
  | invoked {u : String} {v : Value} {i : Invocation} (h : Lawful p B .invocation u fs) :
      Upright p B sc fs (.turn (.back (.invoked v i)))
  | input {node port : String} (hport : p.Takes node port) (h : Lawful p B .value node fs) :
      Upright p B sc fs (.turn (.call (.input node port)))
  | output {u node port : String} (hport : p.Gives u node port) (h : Lawful p B .value u fs) :
      Upright p B sc fs (.turn (.call (.output node port)))
  | pulled {u : String} {v : Value} {ds : Dependencies} (h : Lawful p B .value u fs) :
      Upright p B sc fs (.turn (.back (.pulled v ds)))
  | raises {l : Level} {u : String} {err : Raised} (hl : l ≠ .pause) (herr : err.Within fun c => B c ∨ sc.Lacks c)
      (h : Lawful p B l u fs) : Upright p B sc fs (.turn (.raise err))
  | pauses {u : String} {q : Parked} (hq : q.Pauses) (h : Lawful p B .pause u fs) : Upright p B sc fs q

/-- Whether a strand in a trigger is upright. -/
abbrev Upright.Of (p : Program) (B : Cause → Prop) (x : Strand × Parked) : Prop := Upright p B x.1.scope x.1.frames x.2

section Turns

variable {p : Program} {B B' : Cause → Prop} {e e' : Engine} {s : Strand} {u : String}

theorem Upright.mono {sc : Scope} {fs : List Frame} {q : Parked} (h : Upright p B sc fs q)
    (hB : ∀ c, B c → B' c) : Upright p B' sc fs q := by
  cases h with
  | walks ha h => exact .walks ha (h.mono hB)
  | walked h => exact .walked (h.mono hB)
  | invokes hi h => exact .invokes hi (h.mono hB)
  | behaves hi hs h => exact .behaves hi (hs.mono hB) (h.mono hB)
  | invoked h => exact .invoked (h.mono hB)
  | input hport h => exact .input hport (h.mono hB)
  | output hport h => exact .output hport (h.mono hB)
  | pulled h => exact .pulled (h.mono hB)
  | raises hl herr h => exact .raises hl (herr.mono fun c => .imp_left (hB c)) (h.mono hB)
  | pauses hq h => exact .pauses hq (h.mono hB)

theorem Upright.unpark {sc : Scope} {fs : List Frame} {q : Parked} (h : Upright p B sc fs q) (e : Engine) :
    Upright p B sc fs (.turn (e.unpark q).1) := by
  cases h with
  | pauses hq h => exact .pauses (hq.unpark e) h
  | walks ha h => exact .walks ha h
  | walked h => exact .walked h
  | invokes hi h => exact .invokes hi h
  | behaves hi hs h => exact .behaves hi hs h
  | invoked h => exact .invoked h
  | input hport h => exact .input hport h
  | output hport h => exact .output hport h
  | pulled h => exact .pulled h
  | raises hl herr h => exact .raises hl herr h

/-- An error that is none that a check is to rule out, or a fault. -/
theorem Raised.Within.of_free {err : Raised} (hfree : ∀ c : Cause, c.Free → B c) (h : err.Within Cause.Free)
    (sc : Scope) : err.Within fun c => B c ∨ sc.Lacks c :=
  h.mono fun c hc => .inl (hfree c hc)

theorem Engine.within_tooDeep (e : Engine) (node port : String) : (e.tooDeep node port).Within Cause.Free := by
  unfold Engine.tooDeep
  split
  · simp [Raised.cause, Raised.Within, Cause.Free, Family.checked, Cause.family]
  · trivial

/-- An error ends an invocation. -/
theorem failInvocation_upright (hfree : ∀ c : Cause, c.Free → B c) (hw : e.Welcomes e') (i : Invocation)
    {err : Raised} (herr : err.Within B) (h : Lawful p B .invocation u s.frames) :
    e.Stays (Upright.Of p B) (e'.failInvocation s i err) := by
  have hl : Level.invocation ≠ .pause := nofun
  rw [Engine.failInvocation_eq]
  split
  · exact .go hw (.inr (.raises hl (herr.passed.mono fun c => .inl) h))
  · exact .go hw (.inr (.raises hl (.inl (herr.atInvocation hfree s.scope.trigger i)) h))

theorem walk_upright (hr : p.Regular) (hp : e.program = p) {agenda : List String} (ha : p.Knows agenda)
    (h : Lawful p B .flow u s.frames) : e.Stays (Upright.Of p B) (e.walk s agenda) := by
  have hsame : e.Welcomes e := .of_eq rfl
  cases agenda with
  | nil => exact .go hsame (.inr (.walked h))
  | cons node rest =>
    obtain ⟨⟨⟨n, k⟩, hn⟩, hrest⟩ := List.forall_mem_cons.mp ha
    obtain ⟨m, hm, -⟩ := Program.nodeWithKind_of_program hp hn
    unfold Engine.walk
    dsimp only
    split
    · exact .go hsame (.inr (.walked h))
    · simp only [hm]
      split
      · exact .go hsame (.inr (.invokes (Engine.runs_of_nodeWithKind hp hm .exec) (.walk hrest h)))
      · exact .go (.of_eq rfl)
          (.inr (.walks ((hr.checked.anchored.knows_execTargets hp node k none).append hrest) h))

theorem invoke_upright (hr : p.Regular) (hfree : ∀ c : Cause, c.Free → B c) {i : Invocation} (hi : p.Runs i)
    (h : Lawful p B .invocation i.node s.frames) : e.Stays (Upright.Of p B) (e.invoke s i) := by
  unfold Engine.invoke
  cases hb : i.kind.behavior with
  | some b => exact .go (.of_eq rfl) (.inr (.behaves hi ((hr.abides _ hi.uses b hb _).mono hfree) h))
  | none => exact failInvocation_upright hfree (.of_eq rfl) i trivial h

theorem awaitFor_upright (hr : p.Regular) (hp : e.program = p) {i : Invocation} (hi : p.Runs i) {w : Wait}
    {k : Except Raised w.Reply → Script} (hs : (Script.wait w k).Abides B i.kind)
    (h : Lawful p B .invocation i.node s.frames) : e.Stays (Upright.Of p B) (e.awaitFor s i w k) := by
  have hsame : e.Welcomes e := .of_eq rfl
  cases w with
  | pull port =>
    cases hs with
    | pause hw _ => cases hw
    | pull hport hok herr =>
      obtain ⟨n, hn, hserial⟩ := hi
      exact .go hsame (.inr (.input ⟨n, i.kind, hn, hport⟩ (.behavior ⟨n, hn, hserial⟩ (.pull hport hok herr) h)))
  | advance port =>
    cases hs with
    | pause hw _ => cases hw
    | advance hport hok herr =>
      have hj : p.Runs { i with advanced := i.advanced ++ [port] } := hi
      obtain ⟨q, hq, hid⟩ := hport
      have hout : i.kind.execOutput port = some q := by
        rw [← hid]
        exact Kind.execOutput_of_mem (hr.distinct _ hi.uses).2 hq
      simp only [Engine.awaitFor, hout]
      exact .go hsame (.inr (.walks (hr.checked.anchored.knows_destinations hp i.node (some port))
        (.behavior hj (.advance ⟨q, hq, hid⟩ hok herr) h)))
  | checkpoint => exact .park (.of_eq rfl) (.inr (.pauses trivial (.behavior hi hs h)))
  | sleep seconds =>
    simp only [Engine.awaitFor]
    split
    · next f _ =>
      cases hs with
      | pause _ hk =>
        have hfault : OnlyFaults (.error (.fault f) : Except Raised Bool) := .lift (.error f)
        exact .go hsame (.inr (.behaves hi (hk _ hfault) h))
    · exact .park (.of_eq rfl) (.inr (.pauses trivial (.behavior hi hs h)))

theorem behave_upright (hr : p.Regular) (hfree : ∀ c : Cause, c.Free → B c) (hp : e.program = p) {i : Invocation}
    (hi : p.Runs i) {script : Script} (hs : script.Abides B i.kind) (h : Lawful p B .invocation i.node s.frames) :
    e.Stays (Upright.Of p B) (e.behave s i script) := by
  cases hs with
  | finish v =>
    refine .go (.of_eq ?_) (.inr (.invoked h))
    dsimp only
    split <;> rfl
  | fail herr => exact failInvocation_upright hfree (.of_eq rfl) i herr h
  | again state =>
    unfold Engine.behave
    cases hb : i.kind.behavior with
    | some b => exact .go (.of_eq rfl) (.inr (.behaves hi ((hr.abides _ hi.uses b hb _).mono hfree) h))
    | none => exact failInvocation_upright hfree (.of_eq rfl) i trivial h
  | @ask q k hk =>
    have hreply := hk _ (e.onlyFaults_perform i s.scope q)
    rw [← perform_kind e i s.scope q] at hreply
    rw [← perform_node e i s.scope q] at h
    exact .go (e.welcomes_perform i s.scope q) (.inr (.behaves (hi.perform e s.scope q) hreply h))
  | @edit c k hk => exact .go (Engine.Tended.command e c).strands (.inr (.behaves hi (hk e) h))
  | pause hw hk => exact awaitFor_upright hr hp hi (.pause hw hk) h
  | pull hport hok herr => exact awaitFor_upright hr hp hi (.pull hport hok herr) h
  | advance hport hok herr => exact awaitFor_upright hr hp hi (.advance hport hok herr) h

/-- A value, or an error about an output that the scope lacks. -/
theorem Upright.of_outputResult (sc : Scope) (node port : String) (ds : Dependencies) {fs : List Frame}
    (h : Lawful p B .value u fs) : Upright p B sc fs (.turn (Engine.outputResult sc node port ds)) := by
  have hl : Level.value ≠ .pause := nofun
  unfold Engine.outputResult
  split
  · exact .pulled h
  · next hnone => exact .raises hl (.inr ⟨node, port, hnone, .inr rfl⟩) h

theorem Upright.of_literalResult (sc : Scope) (port : Port) (v : Value) {fs : List Frame}
    (h : Lawful p B .value u fs) : Upright p B sc fs (.turn (Engine.literalResult port v)) := by
  have hl : Level.value ≠ .pause := nofun
  unfold Engine.literalResult
  split
  · exact .pulled h
  · exact .raises hl trivial h

/-- A data input of a node is found, and has an edge or a literal. -/
theorem pullInput_upright (hr : p.Regular) (hp : e.program = p) {node port : String} (hport : p.Takes node port)
    (h : Lawful p B .value node s.frames) : e.Stays (Upright.Of p B) (e.pullInput s node port) := by
  have hsame : e.Welcomes e := .of_eq rfl
  obtain ⟨n, k, hn, q, hq, rfl⟩ := hport
  obtain ⟨m, hm, rfl⟩ := Program.nodeWithKind_of_program hp hn
  have hinput := Kind.dataInput_of_mem (hr.distinct k ⟨_, _, hn⟩).1 hq
  have hin : p.graph.incoming? node q.id = e.graph.incoming? node q.id := by rw [← hp]; rfl
  have hbound := hr.checked.bound node _ k hn q hq
  rw [hin] at hbound
  simp only [Engine.pullInput, hm, hinput]
  split
  · next x hx =>
    obtain ⟨hdest, -⟩ : x.dest = node ∧ x.destPort = q.id := by simpa [Edge.endsAt] using List.find?_some hx
    have hgives := hr.gives (List.mem_of_find?_eq_some (hin.trans hx))
    rw [hdest] at hgives
    exact .go hsame (.inr (.output hgives h))
  · next hnone =>
    rw [hnone] at hbound
    obtain ⟨v, hv⟩ := Named.get?_of_has (hbound.resolve_left Bool.false_ne_true)
    have hv : m.literals.get? q.id = some v := hv
    simp only [hv]
    exact .go hsame (.inr (.of_literalResult _ q v h))

/-- An output of a node is found. A node that is being resolved is not asked again. -/
theorem pullOutput_upright (hr : p.Regular) (hfree : ∀ c : Cause, c.Free → B c) (hp : e.program = p)
    {node port : String} (hport : p.Gives u node port) {nodes : List String} {as : List Account}
    (hmarked : s.scope.Marked) (hpath : s.scope.path.map Prod.fst = nodes.reverse)
    (hs : Stacked .value s.frames nodes as)
    (h : Lawful p B .value u s.frames) : e.Stays (Upright.Of p B) (e.pullOutput s node port) := by
  have hsame : e.Welcomes e := .of_eq rfl
  have hl : Level.value ≠ .pause := nofun
  obtain ⟨n, k, hn, hout, hdraws⟩ := hport
  obtain ⟨m, hm, rfl⟩ := Program.nodeWithKind_of_program hp hn
  have hsome : (k.outputPort port).isNone = false := by
    rw [Option.isNone_eq_false_iff]
    exact hout
  simp only [Engine.pullOutput, hm, hsome, Bool.false_eq_true, if_false]
  split
  · split
    · exact .go hsame (.inr (.pulled h))
    · next hnone => exact .go hsame (.inr (.raises hl (.inr ⟨node, port, hnone, .inl rfl⟩) h))
  · next hdata =>
    have hd : k.dataOnly = true := by simpa using hdata
    have hid : m.id = node := Engine.id_of_nodeWithKind hm
    have hi : p.Runs { serial := m.serial, node := m.id, kind := k, mode := .pull } := by
      rw [hid]
      exact Engine.runs_of_nodeWithKind hp hm .pull
    have honly : p.dataOnly m.id = true := by simp [hid, Program.dataOnly, hn, hd]
    have hdraws' : Draws (p.graph.pulls p.registry) u m.id := hid ▸ hdraws hd
    have hidle : s.scope.isResolving node = false := by
      rw [hmarked.isResolving_eq_false, hpath, List.mem_reverse]
      intro hmem
      exact hr.checked.acyclic node (.tail' (h.draws_of_mem hr hs hmem) (hdraws hd))
    simp only [hidle, Bool.false_eq_true, if_false]
    split
    · exact .go hsame (.inr (.of_outputResult _ _ _ _ h))
    · split
      · exact .go hsame (.inr (.raises hl (.of_free hfree (e.within_tooDeep node port) _) h))
      · unfold Engine.runForOutput
        dsimp only
        split
        · exact .park (.of_eq rfl) (.inr (.invokes hi (.hop honly hdraws' h)))
        · exact .go hsame (.inr (.invokes hi (.output honly hdraws' h)))

theorem continueFrom_upright (hr : p.Regular) (hfree : ∀ c : Cause, c.Free → B c) (hp : e.program = p)
    (i : Invocation) (v : Value) {rest : List String} (hrest : p.Knows rest) (h : Lawful p B .flow u s.frames) :
    e.Stays (Upright.Of p B) (e.continueFrom s i v rest) := by
  have hsame : e.Welcomes e := .of_eq rfl
  have hl : Level.flow ≠ .pause := Level.noConfusion
  have htargets (exit : Option String) : p.Knows (e.onward i exit ++ rest) :=
    (hr.checked.anchored.knows_onward hp i exit).append hrest
  unfold Engine.continueFrom
  cases v with
  | str port =>
    dsimp only
    split
    · exact .go hsame (.inr (.walks (htargets (some port)) h))
    · refine .go (.of_eq rfl) (.inr (.raises hl (.inl (hfree _ ?_)) h))
      simp [Cause.Free, Family.checked, Cause.family, Engine.report]
  | _ => exact .go hsame (.inr (.walks (htargets _) h))

theorem resumeBehavior_upright {i : Invocation} (hi : p.Runs i) {w : Wait} {k : Except Raised w.Reply → Script}
    (hk : ∀ a, (k (.ok a)).Abides B i.kind) (h : Lawful p B .invocation i.node s.frames) (r : Result) :
    e.Stays (Upright.Of p B) (e.resumeBehavior s i w k r) := by
  have hsame : e.Welcomes e := .of_eq rfl
  unfold Engine.resumeBehavior
  split
  · next v ds =>
    have hj : p.Runs { i with dependencies := i.dependencies.merge ds } := hi
    exact .go hsame (.inr (.behaves hj (hk _) h))
  all_goals exact .go hsame (.inr (.behaves hi (hk _) h))

/-- A turn of a strand: an error that reaches a frame has one of the causes that count from then on. -/
theorem Upright.turn (hr : p.Regular) (hp : e.program = p) (hfree : ∀ c : Cause, c.Free → B c)
    (hB : ∀ c, B c ∨ s.scope.Lacks c → B' c) {b : Book} {sig : Signal} (hsits : Sits b (s, .turn sig))
    (h : Upright.Of p B (s, .turn sig)) : e.Stays (Upright.Of p B') (e.turn s sig) := by
  have hsame : e.Welcomes e := .of_eq rfl
  have hmono : ∀ c, B c → B' c := fun c hc => hB c (.inl hc)
  have hfree' : ∀ c : Cause, c.Free → B' c := fun c hc => hmono c (hfree c hc)
  obtain ⟨id, sc, frames⟩ := s
  -- what the strand waits with says how it is upright; for a return or a raise, its top frame says the rest
  generalize hq : Parked.turn sig = q at h
  cases h with
  | walks ha h =>
    cases hq
    exact walk_upright hr hp ha (h.mono hmono)
  | walked h =>
    cases hq
    generalize hl : Level.flow = l at h
    cases h with
    | trigger hout => exact .go hsame (.inl hout)
    | @behavior i w k fs hi hk h =>
      exact resumeBehavior_upright (s := ⟨id, sc, fs⟩) hi (fun a => (hk.of_ok a).mono hmono) (h.mono hmono) _
    | _ => cases hl
  | invokes hi h =>
    cases hq
    exact invoke_upright hr hfree' hi (h.mono hmono)
  | behaves hi hs h =>
    cases hq
    exact behave_upright hr hfree' hp hi (hs.mono hmono) (h.mono hmono)
  | invoked h =>
    cases hq
    generalize hl : Level.invocation = l at h
    cases h with
    | walk hrest h => exact continueFrom_upright (s := ⟨id, sc, _⟩) hr hfree' hp _ _ hrest (h.mono hmono)
    | output _ _ h => exact .go (.of_eq rfl) (.inr (.of_outputResult _ _ _ _ (h.mono hmono)))
    | hop hd hdraws h => exact .park (.of_eq rfl) (.inr (.invoked (.output hd hdraws (h.mono hmono))))
    | @behavior _ w => cases w <;> cases hl
    | trigger => cases hl
  | input hport h =>
    cases hq
    exact pullInput_upright hr hp hport (h.mono hmono)
  | output hport h =>
    cases hq
    -- the error of a cycle names the nodes on the path, which the frames account for
    obtain ⟨nodes, hpath, hfits⟩ := hsits.fits
    cases hfits with
    | output hs => exact pullOutput_upright hr hfree' hp hport hsits.booked.marked hpath hs (h.mono hmono)
    | begins hc _ => exact hc.elim
  | pulled h =>
    cases hq
    generalize hl : Level.value = l at h
    cases h with
    | @behavior i w k fs hi hk h =>
      exact resumeBehavior_upright (s := ⟨id, sc, fs⟩) hi (fun a => (hk.of_ok a).mono hmono) (h.mono hmono) _
    | _ => cases hl
  | @raises l u err hl herr h =>
    cases hq
    have hcounts : err.Within B' := herr.mono hB
    have hagain (sc : Scope) : err.Within fun c => B' c ∨ sc.Lacks c := hcounts.mono fun c => .inl
    have hflow : Level.flow ≠ .pause := nofun
    have hvalue : Level.value ≠ .pause := nofun
    have hinvocation : Level.invocation ≠ .pause := nofun
    cases h with
    | trigger hout => cases err <;> exact .go (.of_eq rfl) (.inl hout)
    | behavior hi hk h =>
      exact .go hsame (.inr (.behaves hi ((hk.passes hl err).abides hcounts) (h.mono hmono)))
    | walk _ h => exact .go hsame (.inr (.raises hflow (hagain _) (h.mono hmono)))
    | output _ _ h => exact .go hsame (.inr (.raises hvalue (hagain _) (h.mono hmono)))
    | hop hd hdraws h =>
      exact .park (.of_eq rfl) (.inr (.raises hinvocation (hagain _) (.output hd hdraws (h.mono hmono))))
  | pauses hpause h =>
    subst hq
    generalize hl : Level.pause = l at h
    cases h with
    | @behavior i w k fs hi hk h =>
      cases sig with
      | back r =>
        exact resumeBehavior_upright (s := ⟨id, sc, fs⟩) hi (fun a => (hk.of_ok a).mono hmono) (h.mono hmono) r
      | _ => exact hpause.elim
    | _ => cases hl

end Turns

end Patchbay
