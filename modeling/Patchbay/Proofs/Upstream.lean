import Patchbay.Proofs.Vouching

/-!
# Values of the present

What is pulled from a data-only node that is a function of its inputs is what evaluation yields of the outputs that
the scope shows then, and never of those that it showed before.

A resolution is followed turn by turn. Each frame of it serves a goal: a behaviour waits for one of its inputs, and
an output for a run of its node. What a script has still to come to, the behaviour comes to from its beginning, now
and wherever else the outputs that were noted are the same.

Contents:
* `Midway`: an invocation of a data-only node at a script.
* `Goal`, `Serves`, `Poised`: the frames of a resolution, and what its strand does next.

Results:
* `Midway.ran`, `Midway.failed`: what the end of a script says of its node.
* `Poised.turn`: a resolution goes on until what it was begun for has its end.
-/

namespace Patchbay

/-! ## Scripts -/

/-- Whether a script comes to all that another one comes to. -/
def Script.Through (b : Behavior) (given : String → Value → Prop) (fails : String → Prop) (s s' : Script) : Prop :=
  ∀ o, s'.Comes b given fails o → s.Comes b given fails o

namespace Script.Through

variable {b : Behavior} {given : String → Value → Prop} {fails : String → Prop} {s : Script}

theorem refl (s : Script) : s.Through b given fails s := fun _ => id

theorem again {state : Value} (h : s.Through b given fails (.again state)) : s.Through b given fails (b state) :=
  fun o ho => h o (.again ho)

theorem ask {q : Query} {k : Except Raised q.Reply → Script} (h : s.Through b given fails (.ask q k))
    (r : Except Raised q.Reply) : s.Through b given fails (k r) :=
  fun o ho => h o (.ask r ho)

theorem edit {c : Command} {k : Except Raised Answer → Script} (h : s.Through b given fails (.edit c k))
    (r : Except Raised Answer) : s.Through b given fails (k r) :=
  fun o ho => h o (.edit r ho)

theorem wait {w : Wait} {k : Except Raised w.Reply → Script} (h : s.Through b given fails (.wait w k))
    (hw : ∀ port, w ≠ .pull port) (r : Except Raised w.Reply) : s.Through b given fails (k r) :=
  fun o ho => h o (.wait hw r ho)

theorem pull {port : String} {k : Except Raised Value → Script} (h : s.Through b given fails (.wait (.pull port) k))
    {v : Value} (hv : given port v) : s.Through b given fails (k (.ok v)) :=
  fun o ho => h o (.pull hv ho)

theorem lack {port : String} {k : Except Raised Value → Script} (h : s.Through b given fails (.wait (.pull port) k))
    (hp : fails port) (err : Raised) : s.Through b given fails (k (.error err)) :=
  fun o ho => h o (.lack hp err ho)

end Script.Through

/-! ## Frames -/

/-- An invocation of a data-only node. -/
structure Sourced (p : Program) (N : String → Prop) (i : Invocation) : Prop where
  mem : N i.node
  kind : ∃ n, p.nodeWithKind i.node = .ok (n, i.kind)
  dataOnly : i.kind.dataOnly = true

/-- An invocation of a data-only node at a script. What the script comes to, the behaviour comes to from its beginning:
a value wherever the noted outputs are as they are shown, and an error now, unless `blame` has it. -/
structure Midway (p : Program) (N : String → Prop) (blame : Prop) (sc : Scope) (i : Invocation) (script : Script) : Prop
    extends Sourced p N i where
  behaves : ∃ b, i.kind.behavior = some b
  noted : Noted p N sc i.dependencies
  discreet : ∀ b, i.kind.behavior = some b → script.Discreet b
  values : ∀ b, i.kind.behavior = some b → ∀ shown, sc.AgreesOn i.dependencies shown →
    (b .null).Through b (p.Feeds (p.Yields shown) i.node) (fun _ => True) script
  errors : blame ∨ ∀ b, i.kind.behavior = some b → (b .null).Through b (p.Feeds (p.Yields sc.shown) i.node)
    (fun port => ∀ v, ¬p.Feeds (p.Yields sc.shown) i.node port v) script

/-- What the frames of a resolution wait for. -/
inductive Goal where
  /-- the value of an input -/
  | input (node port : String)
  /-- the value of an output -/
  | output (node port : String)
  /-- the result of a run of a data-only node -/
  | run (node : String)
  /-- that time passes, or that others have run -/
  | pause

/-- Whether frames wait for a value. -/
def Goal.OfValue : Goal → Prop
  | .input _ _ => True
  | .output _ _ => True
  | _ => False

/-- Whether evaluation has a value for a goal, where outputs of nodes that do not only carry data are what is
`shown` of them. -/
def Goal.Has (p : Program) (shown : String → String → Option Value) : Goal → Value → Prop
  | .input node port, v => p.Feeds (p.Yields shown) node port v
  | .output node port, v => p.Yields shown node port v
  | .run node, v => ∃ n k, p.nodeWithKind node = .ok (n, k) ∧ p.Ran (p.Yields shown) node k v
  | .pause, _ => False

/-- What a behaviour waits for. -/
def Wait.goal (node : String) : Wait → Goal
  | .pull port => .input node port
  | _ => .pause

/-- The frames of a resolution above some that it was begun on, by what they wait for. -/
inductive Serves (p : Program) (N : String → Prop) (blame : Prop) (B : Goal → List Frame → Prop) (sc : Scope) :
    Goal → List Frame → Prop
  | base {g : Goal} {fs : List Frame} (h : B g fs) : Serves p N blame B sc g fs
  | wire {node port : String} {x : Edge} {fs : List Frame} (hx : p.Wired node port x)
      (h : Serves p N blame B sc (.input node port) fs) : Serves p N blame B sc (.output x.source x.sourcePort) fs
  | behavior {i : Invocation} {w : Wait} {k : Except Raised w.Reply → Script} {fs : List Frame}
      (hi : Midway p N blame sc i (.wait w k)) (h : Serves p N blame B sc (.run i.node) fs) :
      Serves p N blame B sc (w.goal i.node) (.behavior i w k :: fs)
  | output {node port : String} {serial : Nat} {fs : List Frame} {n : Node} {k : Kind Behavior}
      (hn : p.nodeWithKind node = .ok (n, k)) (hp : (k.outputPort port).isSome = true) (hd : k.dataOnly = true)
      (h : Serves p N blame B sc (.output node port) fs) :
      Serves p N blame B sc (.run node) (.output node port serial :: fs)
  | hop {node : String} {fs : List Frame} (h : Serves p N blame B sc (.run node) fs) :
      Serves p N blame B sc (.run node) (.hop :: fs)

/-- What the strand of a resolution does next. A value on its way is vouched for, and an error means that evaluation
has no value either, unless `blame` has it. -/
inductive Poised (p : Program) (N : String → Prop) (blame : Prop) (B : Goal → List Frame → Prop) (sc : Scope)
    (fs : List Frame) : Parked → Prop
  | input {node port : String} (hN : N node) (hd : p.dataOnly node = true)
      (h : Serves p N blame B sc (.input node port) fs) : Poised p N blame B sc fs (.turn (.call (.input node port)))
  | output {node port : String} (hN : N node) (h : Serves p N blame B sc (.output node port) fs) :
      Poised p N blame B sc fs (.turn (.call (.output node port)))
  | invokes {i : Invocation} (hi : Sourced p N i) (hnone : i.dependencies = [])
      (h : Serves p N blame B sc (.run i.node) fs) : Poised p N blame B sc fs (.turn (.call (.invoke i)))
  | behaves {i : Invocation} {script : Script} (hi : Midway p N blame sc i script)
      (h : Serves p N blame B sc (.run i.node) fs) : Poised p N blame B sc fs (.turn (.call (.behave i script)))
  | invoked {i : Invocation} {v : Value} (hi : Sourced p N i)
      (hv : Vouched p N sc i.dependencies fun shown => p.Ran (p.Yields shown) i.node i.kind v)
      (h : Serves p N blame B sc (.run i.node) fs) : Poised p N blame B sc fs (.turn (.back (.invoked v i)))
  | pulled {g : Goal} {v : Value} {ds : Dependencies} (hg : g.OfValue)
      (hv : Vouched p N sc ds fun shown => g.Has p shown v) (h : Serves p N blame B sc g fs) :
      Poised p N blame B sc fs (.turn (.back (.pulled v ds)))
  | raised {g : Goal} {err : Raised} (hg : g ≠ .pause) (hnone : blame ∨ ∀ v, ¬g.Has p sc.shown v)
      (h : Serves p N blame B sc g fs) : Poised p N blame B sc fs (.turn (.raise err))
  | pauses {q : Parked} (hq : q.Pauses) (h : Serves p N blame B sc .pause fs) : Poised p N blame B sc fs q

section Frames

variable {p : Program} {N : String → Prop} {blame : Prop} {B : Goal → List Frame → Prop} {sc sc' : Scope}
  {i : Invocation} {script : Script} {g : Goal} {fs : List Frame}

theorem Midway.undisturbed (hi : Midway p N blame sc i script) (h : Undisturbed p sc sc') :
    Midway p N blame sc' i script := by
  refine ⟨hi.toSourced, hi.behaves, h.noted hi.noted, hi.discreet, fun b hb shown hagree => ?_, ?_⟩
  · exact hi.values b hb shown (h.agreesOn hi.noted hagree)
  · rw [h.yields_eq]
    exact hi.errors

theorem Serves.undisturbed (hs : Serves p N blame B sc g fs) (h : Undisturbed p sc sc') :
    Serves p N blame B sc' g fs := by
  induction hs with
  | base hb => exact .base hb
  | wire hx _ ih => exact .wire hx ih
  | behavior hi _ ih => exact .behavior (hi.undisturbed h) ih
  | output hn hp hd _ ih => exact .output hn hp hd ih
  | hop _ ih => exact .hop ih

theorem Goal.has_congr (h : Undisturbed p sc sc') : g.Has p sc'.shown = g.Has p sc.shown := by
  funext v
  cases g <;> simp only [Goal.Has, h.yields_eq]

/-- An input is waited for by a behaviour. -/
theorem Serves.of_input {node port : String} (h : Serves p N blame B sc (.input node port) fs)
    (hbase : ∀ g, ¬B g fs) : ∃ i k rest, i.node = node ∧ fs = .behavior i (.pull port) k :: rest ∧
      Midway p N blame sc i (.wait (.pull port) k) ∧ Serves p N blame B sc (.run i.node) rest := by
  generalize hg : Goal.input node port = g at h
  cases h with
  | base hB => exact absurd hB (hbase g)
  | @behavior i w k rest hi h =>
    cases w with
    | pull q =>
      obtain ⟨rfl, rfl⟩ := Goal.input.inj hg
      exact ⟨i, k, rest, rfl, rfl, hi, h⟩
    | _ => cases hg
  | wire | output | hop => cases hg

/-- A value is waited for as that of an input. -/
theorem Serves.of_value (hg : g.OfValue) (h : Serves p N blame B sc g fs) (hbase : ∀ g, ¬B g fs) :
    ∃ node port, Serves p N blame B sc (.input node port) fs ∧
      ∀ shown v, g.Has p shown v ↔ p.Feeds (p.Yields shown) node port v := by
  cases h with
  | base hB => exact absurd hB (hbase g)
  | @wire node port _ _ hx h =>
    exact ⟨node, port, h, fun shown v => ⟨fun hv => hx.feeds.mpr hv, fun hv => hx.feeds.mp hv⟩⟩
  | @behavior i w k rest hi h =>
    cases w with
    | pull port => exact ⟨i.node, port, .behavior hi h, fun shown v => Iff.rfl⟩
    | _ => exact hg.elim
  | output | hop => exact hg.elim

/-- A run is waited for by an output of its node, perhaps on a task of its own. -/
theorem Serves.of_run {node : String} (h : Serves p N blame B sc (.run node) fs) (hbase : ∀ g, ¬B g fs) :
    (∃ port serial rest n k, fs = .output node port serial :: rest ∧ p.nodeWithKind node = .ok (n, k) ∧
      (k.outputPort port).isSome = true ∧ k.dataOnly = true ∧ Serves p N blame B sc (.output node port) rest) ∨
      ∃ rest, fs = .hop :: rest ∧ Serves p N blame B sc (.run node) rest := by
  generalize hg : Goal.run node = g at h
  cases h with
  | base hB => exact absurd hB (hbase g)
  | wire => cases hg
  | @behavior _ w => cases w <;> cases hg
  | @output m port serial rest n k hn hp hd h =>
    obtain rfl := Goal.run.inj hg
    exact .inl ⟨port, serial, rest, n, k, rfl, hn, hp, hd, h⟩
  | @hop m rest h =>
    obtain rfl := Goal.run.inj hg
    exact .inr ⟨rest, rfl, h⟩

/-- A pause is waited for by a behaviour. -/
theorem Serves.of_pause (h : Serves p N blame B sc .pause fs) (hbase : ∀ g, ¬B g fs) :
    ∃ i w k rest, (∀ port, w ≠ .pull port) ∧ fs = .behavior i w k :: rest ∧ Midway p N blame sc i (.wait w k) ∧
      Serves p N blame B sc (.run i.node) rest := by
  generalize hg : Goal.pause = g at h
  cases h with
  | base hB => exact absurd hB (hbase g)
  | @behavior i w k rest hi h =>
    refine ⟨i, w, k, rest, fun port hw => ?_, rfl, hi, h⟩
    subst hw
    cases hg
  | wire | output | hop => cases hg

/-- Of the frames that a resolution was begun on, or above. -/
theorem Serves.length {goal : Goal} {base : List Frame} (hgoal : ∀ node port, goal ≠ .input node port)
    (hs : Serves p N blame (fun g fs => g = goal ∧ fs = base) sc g fs) :
    (g = goal ∧ fs = base) ∨ base.length < fs.length := by
  induction hs with
  | base hb => exact .inl hb
  | wire hx _ ih => exact ih.imp_left fun h => absurd h.1.symm (hgoal _ _)
  | behavior _ _ ih | output _ _ _ _ ih | hop _ ih =>
    refine .inr ?_
    rw [List.length_cons]
    rcases ih with ⟨-, rfl⟩ | hlt
    · exact Nat.lt_succ_self _
    · exact Nat.lt_succ_of_lt hlt

end Frames

/-! ## Turns -/

/-- Whether a turn refuses to resolve an output, which waits for itself or is nested too deep. -/
def Engine.Denies (e : Engine) (s : Strand) (sig : Signal) : Prop :=
  ∃ node port, sig = .call (.output node port) ∧
    ((e.turn s sig).next = some (s, .raise (.cause (.cyclic (s.scope.path ++ [(node, port)])))) ∨
      (e.turn s sig).next = some (s, .raise (e.tooDeep node port)))

/-- A strand in the midst of a resolution that began in a scope. -/
structure Resolving (p : Program) (N : String → Prop) (blame : Prop) (B : Goal → List Frame → Prop) (sc : Scope)
    (x : Strand × Parked) : Prop where
  poised : Poised p N blame B x.1.scope x.1.frames x.2
  upheld : Upheld p N x.1.scope
  still : Undisturbed p sc x.1.scope

/-- The frames of a strand follow the grammar, and the outputs in progress are the path of its scope. -/
theorem Sits.stacked {b : Book} {x : Strand × Parked} (h : Sits b x) :
    ∃ l nodes as, x.1.scope.path.map Prod.fst = nodes.reverse ∧ Stacked l x.1.frames nodes as := by
  obtain ⟨s, q⟩ := x
  obtain ⟨nodes, hpath, hfits⟩ := h.fits
  cases hfits with
  | begins _ hs | answers hs | joins hs | gathers hs | walks hs | walked hs | invokes _ _ hs | behaves _ _ hs
  | invoked _ _ hs | input hs | output hs | pulled hs _ | woken hs | sleeps hs | raised hs =>
    exact ⟨_, nodes, _, hpath, hs⟩

/-- The node of an output in progress is the last one that has come into it. -/
theorem Sits.path_of_output {b : Book} {x : Strand × Parked} (h : Sits b x) {node port : String} {serial : Nat}
    {fs : List Frame} (hf : x.1.frames = .output node port serial :: fs) :
    ∃ before, x.1.scope.path.map Prod.fst = before ++ [node] := by
  obtain ⟨l, nodes, as, hpath, hs⟩ := h.stacked
  rw [hf] at hs
  cases hs with
  | outer hout => exact (hout _ List.mem_cons_self).elim
  | @output _ _ _ _ nodes _ hs => exact ⟨nodes.reverse, by rw [hpath, List.reverse_cons]⟩

section Turns

variable {p : Program} {N : String → Prop} {blame : Prop} {B : Goal → List Frame → Prop} {e e' : Engine} {s : Strand}
  {i : Invocation} {script : Script}

/-- The strand goes on in its scope. -/
theorem Resolving.go (hw : e.Welcomes e') (hup : Upheld p N s.scope) {frames : List Frame} {sig : Signal}
    (h : Poised p N blame B s.scope frames (.turn sig)) :
    e.Finds (Resolving p N blame B s.scope) (e'.go { s with frames := frames } sig) :=
  .go hw ⟨h, hup, .refl p s.scope⟩

theorem Resolving.park (hw : e.Welcomes e') (hup : Upheld p N s.scope) {frames : List Frame} {q : Parked}
    (h : Poised p N blame B s.scope frames q) :
    e.Finds (Resolving p N blame B s.scope) ⟨e'.park { s with frames := frames } q, none⟩ :=
  .park hw ⟨h, hup, .refl p s.scope⟩

theorem Sourced.kind_eq (hi : Sourced p N i) {n : Node} {k : Kind Behavior} (hn : p.nodeWithKind i.node = .ok (n, k)) :
    k = i.kind := by
  obtain ⟨m, hm⟩ := hi.kind
  obtain ⟨-, rfl⟩ := Prod.mk.inj (Except.ok.inj (hn.symm.trans hm))
  rfl

theorem Sourced.dataOnly_node (hi : Sourced p N i) : p.dataOnly i.node = true := by
  obtain ⟨n, hn⟩ := hi.kind
  exact dataOnly_of_nodeWithKind hn hi.dataOnly

/-- An error ends an invocation. -/
theorem failInvocation_resolving (hw : e.Welcomes e') (hup : Upheld p N s.scope) (i : Invocation) (err : Raised)
    {node : String} (hnone : blame ∨ ∀ v, ¬(Goal.run node).Has p s.scope.shown v)
    (h : Serves p N blame B s.scope (.run node) s.frames) :
    e.Finds (Resolving p N blame B s.scope) (e'.failInvocation s i err) := by
  have hg : Goal.run node ≠ .pause := nofun
  rw [Engine.failInvocation_eq]
  split
  · exact Resolving.go hw hup (.raised hg hnone h)
  · have hreport : e.Welcomes (e'.report s.scope i (err.atInvocation s.scope.trigger i)).2 := hw
    exact Resolving.go hreport hup (.raised hg hnone h)

theorem invoke_resolving (hr : p.Region N) (hup : Upheld p N s.scope) (hi : Sourced p N i)
    (hnone : i.dependencies = []) (h : Serves p N blame B s.scope (.run i.node) s.frames) :
    e.Finds (Resolving p N blame B s.scope) (e.invoke s i) := by
  obtain ⟨n, hn⟩ := hi.kind
  unfold Engine.invoke
  cases hb : i.kind.behavior with
  | some b =>
    have hm : Midway p N blame s.scope i (b .null) := by
      refine ⟨hi, ⟨b, hb⟩, hnone ▸ .nil, fun b' hb' => ?_, fun b' hb' shown _ => ?_, .inr fun b' hb' => ?_⟩
      all_goals obtain rfl := Option.some.inj (hb.symm.trans hb')
      · exact (hr.functional hi.mem hn hi.dataOnly hb).discreet
      · exact .refl _
      · exact .refl _
    exact Resolving.go (.of_eq rfl) hup (.behaves hm h)
  | none =>
    refine failInvocation_resolving (.of_eq rfl) hup i _ (.inr ?_) h
    rintro v ⟨m, k, hm, b, hb', -⟩
    rw [hi.kind_eq hm, hb] at hb'
    cases hb'

/-- A step of a script that needs nothing of the inputs. -/
theorem Midway.step (hi : Midway p N blame s.scope i script) {j : Invocation} {script' : Script}
    (hnode : j.node = i.node) (hkind : j.kind = i.kind) (hnoted : Noted p N s.scope j.dependencies)
    (hkeys : ∀ x ∈ i.dependencies, ∃ u, (x.1, u) ∈ j.dependencies)
    (hdiscreet : ∀ b, i.kind.behavior = some b → script.Discreet b → script'.Discreet b)
    (hthrough : ∀ b, i.kind.behavior = some b → ∀ given fails, (b .null).Through b given fails script →
      (b .null).Through b given fails script') : Midway p N blame s.scope j script' := by
  obtain ⟨serial, node, kind, mode, ds, advanced, halted⟩ := j
  obtain rfl : node = i.node := hnode
  obtain rfl : kind = i.kind := hkind
  refine ⟨⟨hi.mem, hi.kind, hi.dataOnly⟩, hi.behaves, hnoted, fun b hb => hdiscreet b hb (hi.discreet b hb),
    fun b hb shown hagree => ?_, hi.errors.imp_right fun h b hb => ?_⟩
  · exact hthrough b hb _ _ (hi.values b hb shown (hagree.of_keys hkeys))
  · exact hthrough b hb _ _ (h b hb)

/-- A step that reads nothing either. -/
theorem Midway.next (hi : Midway p N blame s.scope i script) {script' : Script}
    (hdiscreet : ∀ b, i.kind.behavior = some b → script.Discreet b → script'.Discreet b)
    (hthrough : ∀ b, i.kind.behavior = some b → ∀ given fails, (b .null).Through b given fails script →
      (b .null).Through b given fails script') : Midway p N blame s.scope i script' :=
  hi.step rfl rfl hi.noted (fun x hx => ⟨x.2, hx⟩) hdiscreet hthrough

/-- What a behaviour is answered at once. -/
theorem Midway.ask {q : Query} {k : Except Raised q.Reply → Script} (hi : Midway p N blame s.scope i (.ask q k))
    (e : Engine) : (e.perform i s.scope q).scope = s.scope ∧
      Midway p N blame s.scope (e.perform i s.scope q).invocation (k (e.perform i s.scope q).reply) := by
  obtain ⟨b, hb⟩ := hi.behaves
  have hq : ∀ port v, q ≠ .memoize port v := by
    cases hi.discreet b hb with
    | ask hq _ => exact hq
  have hscope : (e.perform i s.scope q).scope = s.scope := by
    cases q with
    | memoize port v => exact absurd rfl (hq port v)
    | _ => rfl
  have hdeps : Noted p N s.scope (e.perform i s.scope q).invocation.dependencies ∧
      ∀ x ∈ i.dependencies, ∃ u, (x.1, u) ∈ (e.perform i s.scope q).invocation.dependencies := by
    cases q with
    | readVariable | readVariables =>
      exact ⟨hi.noted.note (fun _ _ h => by cases h) _, fun x hx => Dependencies.key_mem_note _ _ hx⟩
    | _ => exact ⟨hi.noted, fun x hx => ⟨x.2, hx⟩⟩
  refine ⟨hscope, hi.step (perform_node e i s.scope q) (perform_kind e i s.scope q) hdeps.1 hdeps.2
    (fun b _ hd => ?_) fun b _ given fails h => h.ask _⟩
  cases hd with
  | ask _ h => exact h _

/-- A behaviour goes on after a wait that is no pull. -/
theorem Midway.woken {w : Wait} {k : Except Raised w.Reply → Script} (hi : Midway p N blame s.scope i (.wait w k))
    (hw : ∀ port, w ≠ .pull port) (r : Except Raised w.Reply) : Midway p N blame s.scope i (k r) := by
  refine hi.next (fun b _ hd => ?_) fun b _ given fails h => h.wait hw r
  cases hd with
  | wait h => exact h r

/-- A behaviour goes on with a value that it has pulled. -/
theorem Midway.pulled {port : String} {k : Except Raised Value → Script}
    (hi : Midway p N blame s.scope i (.wait (.pull port) k)) {v : Value} {ds : Dependencies}
    (hv : Vouched p N s.scope ds fun shown => p.Feeds (p.Yields shown) i.node port v) :
    Midway p N blame s.scope { i with dependencies := i.dependencies.merge ds } (k (.ok v)) := by
  refine ⟨⟨hi.mem, hi.kind, hi.dataOnly⟩, hi.behaves, hi.noted.merge hv.noted, fun b hb => ?_,
    fun b hb shown hagree => ?_, hi.errors.imp_right fun h b hb => (h b hb).pull hv.now⟩
  · cases hi.discreet b hb with
    | wait h => exact h _
  · have hold : s.scope.AgreesOn i.dependencies shown :=
      hagree.of_keys fun x hx => Dependencies.key_mem_merge_left ds hx
    have hnew : s.scope.AgreesOn ds shown :=
      hagree.of_keys fun x hx => Dependencies.key_mem_merge_right _ (hv.noted x hx).1 hx
    exact (hi.values b hb shown hold).pull (hv.holds shown hnew)

/-- A behaviour goes on after a pull that has failed. -/
theorem Midway.lacks {port : String} {k : Except Raised Value → Script}
    (hi : Midway p N blame s.scope i (.wait (.pull port) k))
    (hnone : blame ∨ ∀ v, ¬p.Feeds (p.Yields s.scope.shown) i.node port v) (err : Raised) :
    Midway p N blame s.scope i (k (.error err)) := by
  refine ⟨hi.toSourced, hi.behaves, hi.noted, fun b hb => ?_, fun b hb shown hagree => ?_, ?_⟩
  · cases hi.discreet b hb with
    | wait h => exact h _
  · exact (hi.values b hb shown hagree).lack trivial err
  · rcases hnone with hblame | hnone
    · exact .inl hblame
    · exact hi.errors.imp_right fun h b hb => (h b hb).lack hnone err

/-- The value that a script ends with is one that its node comes to. -/
theorem Midway.ran (hr : p.Strict N) {v : Value} (hi : Midway p N blame s.scope i (.finish v)) :
    Vouched p N s.scope i.dependencies fun shown => p.Ran (p.Yields shown) i.node i.kind v := by
  obtain ⟨b, hb⟩ := hi.behaves
  obtain ⟨n, hn⟩ := hi.kind
  refine ⟨hi.noted, fun shown hagree => ⟨b, hb, ?_⟩⟩
  exact hr.exacting hi.mem hn hi.dataOnly hb _ _ (hi.values b hb shown hagree _ (.finish v))

/-- Where a script ends with an error, its node comes to no value. -/
theorem Midway.failed (hr : p.Region N) {err : Raised} (hi : Midway p N blame s.scope i (.fail err)) :
    blame ∨ ∀ v, ¬(Goal.run i.node).Has p s.scope.shown v := by
  refine hi.errors.imp_right fun h => ?_
  rintro v ⟨n, k, hn, hran⟩
  obtain rfl := hi.kind_eq hn
  obtain ⟨b, hb⟩ := hi.behaves
  cases hr.settled hi.mem hn hi.dataOnly hb hran (h b hb none (.fail err))

theorem awaitFor_resolving (hr : p.Region N) (hup : Upheld p N s.scope) {w : Wait} {k : Except Raised w.Reply → Script}
    (hi : Midway p N blame s.scope i (.wait w k)) (h : Serves p N blame B s.scope (.run i.node) s.frames) :
    e.Finds (Resolving p N blame B s.scope) (e.awaitFor s i w k) := by
  have hsame : e.Welcomes e := .of_eq rfl
  cases w with
  | pull port => exact Resolving.go hsame hup (.input hi.mem hi.dataOnly_node (.behavior hi h))
  | advance port =>
    obtain ⟨n, hn⟩ := hi.kind
    simp only [Engine.awaitFor, (hr.shaped hi.mem hn).execOutput hi.dataOnly port]
    exact Resolving.go hsame hup (.behaves (hi.woken (fun _ hw => by cases hw) _) h)
  | checkpoint => exact Resolving.park (.of_eq rfl) hup (.pauses trivial (.behavior hi h))
  | sleep seconds =>
    simp only [Engine.awaitFor]
    split
    · exact Resolving.go hsame hup (.behaves (hi.woken (fun _ hw => by cases hw) _) h)
    · exact Resolving.park (.of_eq rfl) hup (.pauses trivial (.behavior hi h))

theorem behave_resolving (hr : p.Strict N) (hup : Upheld p N s.scope) (hi : Midway p N blame s.scope i script)
    (h : Serves p N blame B s.scope (.run i.node) s.frames) :
    e.Finds (Resolving p N blame B s.scope) (e.behave s i script) := by
  have hsame : e.Welcomes e := .of_eq rfl
  cases script with
  | finish v =>
    have hstill : Undisturbed p s.scope { s.scope with executed := s.scope.executed + 1 } := .of_eq rfl rfl
    refine .go (.of_eq ?_) ⟨.invoked hi.toSourced (hstill.vouched (hi.ran hr)) (h.undisturbed hstill),
      hup.of_eq rfl rfl rfl rfl, hstill⟩
    dsimp only
    split <;> rfl
  | fail err => exact failInvocation_resolving hsame hup i err (hi.failed hr.toRegion) h
  | again state =>
    obtain ⟨b, hb⟩ := hi.behaves
    simp only [Engine.behave, hb]
    refine Resolving.go hsame hup (.behaves (hi.next (fun b' hb' hd => ?_) fun b' hb' given fails ht => ?_) h)
    all_goals obtain rfl := Option.some.inj (hb.symm.trans hb')
    · cases hd with
      | again h => exact h
    · exact ht.again
  | ask q k =>
    obtain ⟨hscope, hm⟩ := hi.ask e
    have hs : Serves p N blame B s.scope (.run (e.perform i s.scope q).invocation.node) s.frames := by
      rwa [perform_node]
    have heq : e.behave s i (.ask q k) = (e.perform i s.scope q).engine.go s
        (.call (.behave (e.perform i s.scope q).invocation (k (e.perform i s.scope q).reply))) := by
      simp only [Engine.behave, hscope]
    rw [heq]
    exact Resolving.go (e.welcomes_perform i s.scope q) hup (.behaves hm hs)
  | edit c k =>
    refine Resolving.go (Engine.Tended.command e c).strands hup (.behaves (hi.next (fun b _ hd => ?_) ?_) h)
    · cases hd with
      | edit h => exact h _
    · exact fun b _ given fails ht => ht.edit _
  | wait w k => exact awaitFor_resolving hr.toRegion hup hi h

theorem pullInput_resolving (hr : p.Region N) (hsuits : e.Suits p N) (hup : Upheld p N s.scope) {node port : String}
    (hN : N node) (hd : p.dataOnly node = true) (h : Serves p N blame B s.scope (.input node port) s.frames) :
    e.Finds (Resolving p N blame B s.scope) (e.pullInput s node port) := by
  have hsame : e.Welcomes e := .of_eq rfl
  have hvalue : (Goal.input node port).OfValue := trivial
  have hg : Goal.input node port ≠ .pause := nofun
  rcases hsuits.pullInput_wired_or_fixed (s := s) hN with ⟨x, hx, heq⟩ | ⟨r, hfixed, heq⟩
  · rw [heq]
    exact Resolving.go hsame hup (.output (hr.closed hN hd hx) (.wire hx h))
  · rw [heq]
    cases r with
    | ok v =>
      have hv : Vouched p N s.scope [] fun shown => (Goal.input node port).Has p shown v :=
        ⟨.nil, fun shown _ => hfixed.feeds.mpr rfl⟩
      exact Resolving.go hsame hup (.pulled hvalue hv h)
    | error err =>
      refine Resolving.go hsame hup (.raised hg (.inr fun v hv => ?_) h)
      cases hfixed.feeds.mp hv

/-- An output of a data-only node that has the outputs of a run. -/
theorem Poised.of_outputResult (hr : p.Region N) {sc : Scope} {fs : List Frame} {node port : String} {n : Node}
    {k : Kind Behavior} (hN : N node) (hn : p.nodeWithKind node = .ok (n, k))
    (hp : (k.outputPort port).isSome = true) (hd : k.dataOnly = true) {ds : Dependencies}
    (hv : Vouched p N sc ds fun shown => ∃ r, p.Ran (p.Yields shown) node k r ∧
      sc.shown node port = (Engine.mergedOutputs k [] r).get? (.str port))
    (h : Serves p N blame B sc (.output node port) fs) :
    Poised p N blame B sc fs (.turn (Engine.outputResult sc node port ds)) := by
  have hvalue : (Goal.output node port).OfValue := trivial
  have hg : Goal.output node port ≠ .pause := nofun
  unfold Engine.outputResult
  split
  · next v hget =>
    refine .pulled hvalue (hv.mono fun shown hshown => ?_) h
    obtain ⟨r, hran, hout⟩ := hshown
    exact (Program.yields_ran hn hp hd).mpr ⟨r, hran, hout.symm.trans hget⟩
  · next hget =>
    refine .raised hg (.inr fun v hyields => ?_) h
    obtain ⟨r, hran, hout⟩ := hv.now
    obtain ⟨r', hran', hout'⟩ := (Program.yields_ran hn hp hd).mp hyields
    obtain rfl := hr.ran_unique hN hn hd hran hran'
    rw [← hout, Scope.shown, hget] at hout'
    cases hout'

/-- A published output is as its note says. -/
theorem Vouched.of_published {node port : String} {n : Node} {k : Kind Behavior} {v : Value} (hN : N node)
    (hn : p.nodeWithKind node = .ok (n, k)) (hp : (k.outputPort port).isSome = true) (hd : k.dataOnly = false)
    {sc : Scope} (hget : (sc.outputsOf node).get? (.str port) = some v) :
    Vouched p N sc [(.output node (.str port), sc.epoch node (.str port))]
      fun shown => (Goal.output node port).Has p shown v := by
  have hdn : p.dataOnly node = false := by simp only [Program.dataOnly, hn, hd]
  refine ⟨fun x hx => ?_, fun shown hagree => ?_⟩
  · rw [List.mem_singleton.mp hx]
    refine ⟨⟨port, rfl⟩, fun m q heq => ?_⟩
    obtain ⟨rfl, hq⟩ := Dependency.output.inj heq
    obtain rfl := Value.str.inj hq
    exact ⟨hN, hdn, rfl⟩
  · exact (Program.yields_shown hn hp hd).mpr ((hagree node port _ List.mem_cons_self).trans hget)

/-- Outputs that are remembered, and still current, are those of a run. -/
theorem Upheld.vouched_current {node : String} {n : Node} {k : Kind Behavior} {ds : Dependencies} {sc : Scope}
    (hup : Upheld p N sc) (hN : N node) (hn : p.nodeWithKind node = .ok (n, k)) (hd : k.dataOnly = true)
    (hds : (sc.cached? node).filter (e.stillCurrent sc) = some ds) (port : String) :
    Vouched p N sc ds fun shown => ∃ r, p.Ran (p.Yields shown) node k r ∧
      sc.shown node port = (Engine.mergedOutputs k [] r).get? (.str port) := by
  obtain ⟨hcached, hcurrent⟩ := Option.filter_eq_some_iff.mp hds
  rw [stillCurrent_iff] at hcurrent
  have hattests := hup.attests node ds hN (dataOnly_of_nodeWithKind hn hd) hcached
  refine ⟨fun x hx => ⟨(hattests.seen x hx).1, fun m q heq => ?_⟩, fun shown hagree => ?_⟩
  · obtain ⟨hNm, hdm, -⟩ := (hattests.seen x hx).2 m q heq
    have hversion := hcurrent x hx
    rw [heq] at hversion
    exact ⟨hNm, hdm, hversion.symm⟩
  · obtain ⟨m, k', r, hm, hran, hout⟩ := hattests.current (fun m q u hmem => hcurrent _ hmem) shown hagree
    obtain ⟨-, rfl⟩ := Prod.mk.inj (Except.ok.inj (hn.symm.trans hm))
    exact ⟨r, hran, hout port⟩

/-- A data-only node begins to run for one of its outputs. -/
theorem runForOutput_resolving (hup : Upheld p N s.scope) {node port : String} {m n : Node} {k : Kind Behavior}
    (hN : N node) (hn : e.nodeWithKind node = .ok (n, k)) (hm : p.nodeWithKind node = .ok (m, k))
    (hp : (k.outputPort port).isSome = true) (hd : k.dataOnly = true)
    (h : Serves p N blame B s.scope (.output node port) s.frames) :
    e.Finds (Resolving p N blame B s.scope) (e.runForOutput s n k port) := by
  obtain rfl : n.id = node := Engine.id_of_nodeWithKind hn
  have hdn := dataOnly_of_nodeWithKind hm hd
  have hstill : Undisturbed p s.scope ((s.scope.resetNode n.id).enter n.id port) :=
    (Undisturbed.resetNode s.scope hdn).trans (.of_eq rfl rfl)
  have hup' : Upheld p N ((s.scope.resetNode n.id).enter n.id port) := hup.enter hdn port
  have hi : Sourced p N { serial := n.serial, node := n.id, kind := k, mode := .pull } := ⟨hN, ⟨m, hm⟩, hd⟩
  have hrun : Serves p N blame B ((s.scope.resetNode n.id).enter n.id port) (.run n.id)
      (.output n.id port n.serial :: s.frames) := .output hm hp hd (h.undisturbed hstill)
  have hcases := e.runForOutput_cases s n k port
  generalize e.runForOutput s n k port = t at hcases ⊢
  cases hcases with
  | hops => exact .park (.of_eq rfl) ⟨.invokes hi rfl (.hop hrun), hup', hstill⟩
  | nests => exact .go (.of_eq rfl) ⟨.invokes hi rfl hrun, hup', hstill⟩

/-- An output of the region is resolved: with its value, with an error where it has none, or by a run of its node. A
refusal for the path is one that `blame` has. -/
theorem pullOutput_resolving (hr : p.Region N) (hsuits : e.Suits p N) (hup : Upheld p N s.scope) {node port : String}
    (hdeny : e.Denies s (.call (.output node port)) → blame) (hN : N node)
    (h : Serves p N blame B s.scope (.output node port) s.frames) :
    e.Finds (Resolving p N blame B s.scope) (e.pullOutput s node port) := by
  have hsame : e.Welcomes e := .of_eq rfl
  have hvalue : (Goal.output node port).OfValue := trivial
  have hg : Goal.output node port ≠ .pause := nofun
  have hraise {err : Raised} (hnone : blame ∨ ∀ v, ¬(Goal.output node port).Has p s.scope.shown v) :
      e.Finds (Resolving p N blame B s.scope) (e.go s (.raise err)) :=
    Resolving.go hsame hup (.raised hg hnone h)
  have hsome {k : Kind Behavior} (hport : k.outputPort port ≠ none) : (k.outputPort port).isSome = true :=
    Option.isSome_iff_ne_none.mpr hport
  have hcases := e.pullOutput_cases s node port
  generalize hturn : e.pullOutput s node port = t at hcases ⊢
  have hnext : (e.turn s (.call (.output node port))).next = t.next := congrArg Engine.Turn.next hturn
  cases hcases with
  | unknown hn =>
    refine hraise (.inr fun v hv => ?_)
    obtain ⟨n, k, hk, -⟩ := Program.yields_iff.mp hv
    obtain ⟨m, hm⟩ := (hsuits.kinds node hN k).mpr ⟨n, hk⟩
    rw [hm] at hn
    cases hn
  | portless hn hport =>
    refine hraise (.inr fun v hv => ?_)
    obtain ⟨m, hm⟩ := hsuits.nodeWithKind hN hn
    obtain ⟨m', k', hm', hp', -⟩ := Program.yields_iff.mp hv
    obtain ⟨-, rfl⟩ := Prod.mk.inj (Except.ok.inj (hm.symm.trans hm'))
    rw [hport] at hp'
    cases hp'
  | published hn hport hd hget =>
    obtain ⟨m, hm⟩ := hsuits.nodeWithKind hN hn
    exact Resolving.go hsame hup (.pulled hvalue (.of_published hN hm (hsome hport) hd hget) h)
  | unpublished hn hport hd hget =>
    obtain ⟨m, hm⟩ := hsuits.nodeWithKind hN hn
    refine hraise (.inr fun v hv => ?_)
    rw [Goal.Has, Program.yields_shown hm (hsome hport) hd, Scope.shown, hget] at hv
    cases hv
  | current hn hport hd hds =>
    obtain ⟨m, hm⟩ := hsuits.nodeWithKind hN hn
    exact Resolving.go hsame hup
      (.of_outputResult hr hN hm (hsome hport) hd (hup.vouched_current hN hm hd hds port) h)
  | circular => exact hraise (.inl (hdeny ⟨node, port, rfl, .inl hnext⟩))
  | deep => exact hraise (.inl (hdeny ⟨node, port, rfl, .inr hnext⟩))
  | runs hn hport hd =>
    obtain ⟨m, hm⟩ := hsuits.nodeWithKind hN hn
    exact runForOutput_resolving hup hN hn hm (hsome hport) hd h

/-- A data-only node has run for one of its outputs. -/
theorem finishOutput_resolving (hr : p.Region N) (hup : Upheld p N s.scope) (hnodup : (s.scope.path.map Prod.fst).Nodup)
    {before : List String} (hpath : s.scope.path.map Prod.fst = before ++ [i.node]) (hi : Sourced p N i) {v : Value}
    (hv : Vouched p N s.scope i.dependencies fun shown => p.Ran (p.Yields shown) i.node i.kind v) {port : String}
    (hp : (i.kind.outputPort port).isSome = true) (serial : Nat)
    (h : Serves p N blame B s.scope (.output i.node port) s.frames) :
    e.Finds (Resolving p N blame B s.scope) (e.finishOutput s i.node port serial v i) := by
  obtain ⟨n, hn⟩ := hi.kind
  have hclear : s.scope.outputsOf i.node = [] :=
    hup.clear i.node hi.mem hi.dataOnly_node (by rw [hpath]; exact List.mem_append_right _ List.mem_cons_self)
  have hleave : Undisturbed p s.scope (s.scope.leave i.node) := .of_eq rfl rfl
  have hstill : Undisturbed p s.scope
      (((s.scope.leave i.node).withOutputs i.node (Engine.mergedOutputs i.kind [] v)).cache i.node i.dependencies) :=
    (hleave.trans (.withOutputs (s.scope.leave i.node) hi.dataOnly_node _)).trans (.of_eq rfl rfl)
  have hup' := hup.store hnodup hpath hi.dataOnly_node hn hv
  simp only [Engine.finishOutput, hclear]
  refine .go (.of_eq rfl) ⟨.of_outputResult hr hi.mem hn hp hi.dataOnly ?_ (h.undisturbed hstill), hup', hstill⟩
  refine (hstill.vouched hv).mono fun shown hran => ⟨v, hran, ?_⟩
  have hout := Scope.outputsOf_withOutputs (s.scope.leave i.node) i.node i.node (Engine.mergedOutputs i.kind [] v)
  rw [if_pos rfl] at hout
  exact congrArg (Dict.get? · (.str port)) hout

/-- A strand in the midst of a resolution goes on with it, until what it was begun for has its end. -/
theorem Poised.turn {b : Book} {sig : Signal} (hr : p.Strict N) (hsuits : e.Suits p N) (hsits : Sits b (s, .turn sig))
    (hup : Upheld p N s.scope) (hdeny : e.Denies s sig → blame) (hdone : sig.Ended → ∀ g, ¬B g s.frames)
    (h : Poised p N blame B s.scope s.frames (.turn sig)) :
    e.Finds (Resolving p N blame B s.scope) (e.turn s sig) := by
  have hsame : e.Welcomes e := .of_eq rfl
  obtain ⟨id, sc, frames⟩ := s
  generalize hq : Parked.turn sig = q at h
  cases h with
  | input hN hd h =>
    cases hq
    exact pullInput_resolving hr.toRegion hsuits hup hN hd h
  | output hN h =>
    cases hq
    exact pullOutput_resolving hr.toRegion hsuits hup hdeny hN h
  | invokes hi hnone h =>
    cases hq
    exact invoke_resolving hr.toRegion hup hi hnone h
  | behaves hi h =>
    cases hq
    exact behave_resolving hr hup hi h
  | invoked hi hv h =>
    cases hq
    -- above the frame of the output there may be a hop, where the strand parks before it goes on
    rcases h.of_run (hdone trivial) with ⟨port, serial, fs, n, k, rfl, hn, hp, hd, h⟩ | ⟨fs, rfl, h⟩
    · obtain ⟨before, hpath⟩ := hsits.path_of_output rfl
      rw [hi.kind_eq hn] at hp
      exact finishOutput_resolving (s := ⟨id, sc, fs⟩) hr.toRegion hup hsits.booked.nodup hpath hi hv hp serial h
    · exact Resolving.park (s := ⟨id, sc, fs⟩) (.of_eq rfl) hup (.invoked hi hv h)
  | pulled hg hv h =>
    cases hq
    obtain ⟨node, port, h, hfeeds⟩ := h.of_value hg (hdone trivial)
    obtain ⟨i, k, fs, rfl, rfl, hi, h⟩ := h.of_input (hdone trivial)
    have hgiven := hv.mono fun shown => (hfeeds shown _).mp
    exact Resolving.go (s := ⟨id, sc, fs⟩) hsame hup (.behaves (hi.pulled hgiven) h)
  | @raised g err hg hnone h =>
    cases hq
    -- a raise answers the pull of a value or the run of a node; no pause is answered by one
    have hwaits : g.OfValue ∨ ∃ node, g = .run node := by
      cases g with
      | run node => exact .inr ⟨node, rfl⟩
      | pause => exact absurd rfl hg
      | _ => exact .inl trivial
    rcases hwaits with hvalue | ⟨node, rfl⟩
    · obtain ⟨node, port, h, hfeeds⟩ := h.of_value hvalue (hdone trivial)
      obtain ⟨i, k, fs, rfl, rfl, hi, h⟩ := h.of_input (hdone trivial)
      have hlack := hnone.imp_right fun hnone v hv => hnone v ((hfeeds _ v).mpr hv)
      exact Resolving.go (s := ⟨id, sc, fs⟩) hsame hup (.behaves (hi.lacks hlack err) h)
    · rcases h.of_run (hdone trivial) with ⟨port, serial, fs, n, k, rfl, hn, hp, hd, h⟩ | ⟨fs, rfl, h⟩
      · have hout : Goal.output node port ≠ .pause := nofun
        have hstill : Undisturbed p sc (sc.leave node) := .of_eq rfl rfl
        refine .go hsame
          ⟨.raised hout (hnone.imp_right fun hnone v hv => ?_) (h.undisturbed hstill), hup.leave _, hstill⟩
        rw [Goal.has_congr hstill] at hv
        obtain ⟨r, hran, -⟩ := (Program.yields_ran hn hp hd).mp hv
        exact hnone r ⟨n, k, hn, hran⟩
      · exact Resolving.park (s := ⟨id, sc, fs⟩) (.of_eq rfl) hup (.raised hg hnone h)
  | pauses hpause h =>
    subst hq
    cases sig with
    | back r =>
      obtain ⟨i, w, k, fs, hw, rfl, hi, h⟩ := h.of_pause (hdone trivial)
      obtain ⟨r', heq⟩ : ∃ r', e.resumeBehavior ⟨id, sc, fs⟩ i w k r =
          e.go ⟨id, sc, fs⟩ (.call (.behave i (k r'))) := by
        unfold Engine.resumeBehavior
        split
        · exact absurd rfl (hw _)
        · exact absurd rfl (hw _)
        all_goals exact ⟨_, rfl⟩
      show e.Finds _ (e.resumeBehavior ⟨id, sc, fs⟩ i w k r)
      rw [heq]
      exact Resolving.go (s := ⟨id, sc, fs⟩) hsame hup (.behaves (hi.woken hw r') h)
    | _ => exact hpause.elim

end Turns

end Patchbay
