import Mathlib.Logic.Basic
import Patchbay.Proofs.Plain
import Patchbay.Proofs.Validity

/-!
# Behaviours that are functions of their inputs

A behaviour may ask for more than its inputs, wait, log and write. It is a function of its inputs when their values
settle what it comes to, whatever else it is told. Where all data-only nodes have such behaviours, the outputs that
the other nodes have published settle what every output yields: `Program.Yields` is the least relation that runs each
data-only node on what its inputs yield.

A behaviour may also go on when a pull has failed. It is exacting when it never owes a value to that.

Contents:
* `Script.Comes`: what a script may come to, where its inputs have given values.
* `Behavior.Functional`, `Behavior.Exacting`.
* `Program.Yields`: evaluation without a cache.
* `Program.Region`, `Program.Strict`: nodes that are fed by functions, and by exacting ones.

Results:
* `Script.OnlyPulls.functional`, `Script.OnlyPulls.exacting`: behaviours that only pull.
* `Program.Region.unique`: an output yields at most one value.
-/

namespace Patchbay

/-! ## What scripts come to -/

/-- What a script may come to, a value or an error: a pull brings a value that is `given` for the port, or fails where
the port `fails`, and everything else that is asked may be answered in any way. -/
inductive Script.Comes (b : Behavior) (given : String → Value → Prop) (fails : String → Prop) :
    Script → Option Value → Prop
  | finish (v : Value) : Comes b given fails (.finish v) (some v)
  | fail (err : Raised) : Comes b given fails (.fail err) none
  | again {state : Value} {o : Option Value} (h : Comes b given fails (b state) o) :
      Comes b given fails (.again state) o
  | ask {q : Query} {k : Except Raised q.Reply → Script} {o : Option Value} (r : Except Raised q.Reply)
      (h : Comes b given fails (k r) o) : Comes b given fails (.ask q k) o
  | edit {c : Command} {k : Except Raised Answer → Script} {o : Option Value} (r : Except Raised Answer)
      (h : Comes b given fails (k r) o) : Comes b given fails (.edit c k) o
  | wait {w : Wait} {k : Except Raised w.Reply → Script} {o : Option Value} (hw : ∀ port, w ≠ .pull port)
      (r : Except Raised w.Reply) (h : Comes b given fails (k r) o) : Comes b given fails (.wait w k) o
  | pull {port : String} {k : Except Raised Value → Script} {v : Value} {o : Option Value} (hv : given port v)
      (h : Comes b given fails (k (.ok v)) o) : Comes b given fails (.wait (.pull port) k) o
  | lack {port : String} {k : Except Raised Value → Script} {o : Option Value} (hp : fails port) (err : Raised)
      (h : Comes b given fails (k (.error err)) o) : Comes b given fails (.wait (.pull port) k) o

theorem Script.Comes.mono {b : Behavior} {given given' : String → Value → Prop} {fails fails' : String → Prop}
    {s : Script} {o : Option Value} (h : s.Comes b given fails o) (hgiven : ∀ port v, given port v → given' port v)
    (hfails : ∀ port, fails port → fails' port) : s.Comes b given' fails' o := by
  induction h with
  | finish v => exact .finish v
  | fail err => exact .fail err
  | again _ ih => exact .again ih
  | ask r _ ih => exact .ask r ih
  | edit r _ ih => exact .edit r ih
  | wait hw r _ ih => exact .wait hw r ih
  | pull hv _ ih => exact .pull (hgiven _ _ hv) ih
  | lack hp err _ ih => exact .lack (hfails _ hp) err ih

/-- A script comes to something by a last one of ever more given values. -/
theorem Script.Comes.bounded {b : Behavior} {given : Nat → String → Value → Prop} {fails : String → Prop} {s : Script}
    {o : Option Value} (h : s.Comes b (fun port v => ∃ d, given d port v) fails o)
    (hmono : ∀ d d', d ≤ d' → ∀ port v, given d port v → given d' port v) : ∃ d, s.Comes b (given d) fails o := by
  induction h with
  | finish v => exact ⟨0, .finish v⟩
  | fail err => exact ⟨0, .fail err⟩
  | again _ ih => exact ih.imp fun _ h => .again h
  | ask r _ ih => exact ih.imp fun _ h => .ask r h
  | edit r _ ih => exact ih.imp fun _ h => .edit r h
  | wait hw r _ ih => exact ih.imp fun _ h => .wait hw r h
  | pull hv _ ih =>
    obtain ⟨d, hd⟩ := hv
    obtain ⟨d', hd'⟩ := ih
    refine ⟨max d d', .pull (hmono d _ (le_max_left d d') _ _ hd) ?_⟩
    exact hd'.mono (hmono d' _ (le_max_right d d')) fun _ => id
  | lack hp err _ ih => exact ih.imp fun _ h => .lack hp err h

/-- A script that publishes nothing. -/
inductive Script.Discreet (b : Behavior) : Script → Prop
  | finish (v : Value) : Discreet b (.finish v)
  | fail (err : Raised) : Discreet b (.fail err)
  | again {state : Value} (h : Discreet b (b state)) : Discreet b (.again state)
  | ask {q : Query} {k : Except Raised q.Reply → Script} (hq : ∀ port v, q ≠ .memoize port v)
      (h : ∀ r, Discreet b (k r)) : Discreet b (.ask q k)
  | edit {c : Command} {k : Except Raised Answer → Script} (h : ∀ r, Discreet b (k r)) : Discreet b (.edit c k)
  | wait {w : Wait} {k : Except Raised w.Reply → Script} (h : ∀ r, Discreet b (k r)) : Discreet b (.wait w k)

namespace Behavior

/-- Whether a behaviour is a function of its inputs: where they have one value each, or none, it comes to one value,
or to errors alone, and it has no effect on outputs but by its result. -/
structure Functional (b : Behavior) : Prop where
  settled : ∀ given : String → Value → Prop, (∀ port u v, given port u → given port v → u = v) → ∀ o o',
    (b .null).Comes b given (fun port => ∀ v, ¬given port v) o →
      (b .null).Comes b given (fun port => ∀ v, ¬given port v) o' → o = o'
  discreet : (b .null).Discreet b

/-- Whether a behaviour owes no value to a failure: the value that it comes to when some of its pulls fail is one that
it also comes to when none does. -/
def Exacting (b : Behavior) : Prop :=
  ∀ given v, (b .null).Comes b given (fun _ => True) (some v) → (b .null).Comes b given (fun _ => False) (some v)

end Behavior

/-- A script that only pulls inputs, and hands on the errors of its pulls. -/
inductive Script.OnlyPulls (b : Behavior) : Script → Prop
  | finish (v : Value) : OnlyPulls b (.finish v)
  | fail (err : Raised) : OnlyPulls b (.fail err)
  | again {state : Value} (h : OnlyPulls b (b state)) : OnlyPulls b (.again state)
  | pull {port : String} {k : Except Raised Value → Script} (h : ∀ v, OnlyPulls b (k (.ok v)))
      (handsOn : ∀ err, k (.error err) = .fail err) : OnlyPulls b (.wait (.pull port) k)

namespace Script.OnlyPulls

variable {b : Behavior} {s : Script}

theorem discreet (h : s.OnlyPulls b) : s.Discreet b := by
  induction h with
  | finish v => exact .finish v
  | fail err => exact .fail err
  | again _ ih => exact .again ih
  | pull _ handsOn ih =>
    refine .wait fun r => ?_
    cases r with
    | ok v => exact ih v
    | error err =>
      rw [handsOn]
      exact .fail err

theorem comes_unique (h : s.OnlyPulls b) {given : String → Value → Prop}
    (hgiven : ∀ port u v, given port u → given port v → u = v) {o o' : Option Value}
    (ho : s.Comes b given (fun port => ∀ v, ¬given port v) o)
    (ho' : s.Comes b given (fun port => ∀ v, ¬given port v) o') : o = o' := by
  induction h with
  | finish v =>
    cases ho
    cases ho'
    rfl
  | fail err =>
    cases ho
    cases ho'
    rfl
  | again _ ih =>
    cases ho with
    | again ho =>
      cases ho' with
      | again ho' => exact ih ho ho'
  | pull _ handsOn ih =>
    have hlack {err : Raised} {k : Except Raised Value → Script} {o : Option Value}
        (handsOn : k (.error err) = .fail err)
        (h : (k (.error err)).Comes b given (fun port => ∀ v, ¬given port v) o) : o = none := by
      rw [handsOn] at h
      cases h
      rfl
    cases ho with
    | wait hw => exact absurd rfl (hw _)
    | pull hv ho =>
      cases ho' with
      | wait hw => exact absurd rfl (hw _)
      | pull hv' ho' =>
        obtain rfl := hgiven _ _ _ hv hv'
        exact ih _ ho ho'
      | lack hp => exact absurd hv (hp _)
    | lack hp err ho =>
      cases ho' with
      | wait hw => exact absurd rfl (hw _)
      | pull hv' => exact absurd hv' (hp _)
      | lack _ err' ho' => rw [hlack (handsOn err) ho, hlack (handsOn err') ho']

/-- A behaviour that only pulls is a function of its inputs. -/
theorem functional (h : (b .null).OnlyPulls b) : b.Functional :=
  ⟨fun _ hgiven _ _ ho ho' => h.comes_unique hgiven ho ho', h.discreet⟩

theorem comes_of_fails (h : s.OnlyPulls b) {given : String → Value → Prop} {v : Value}
    (ho : s.Comes b given (fun _ => True) (some v)) : s.Comes b given (fun _ => False) (some v) := by
  induction h with
  | finish u =>
    cases ho
    exact .finish _
  | fail err => cases ho
  | again _ ih =>
    cases ho with
    | again ho => exact .again (ih ho)
  | pull _ handsOn ih =>
    cases ho with
    | wait hw => exact absurd rfl (hw _)
    | pull hv ho => exact .pull hv (ih _ ho)
    | lack _ err ho =>
      rw [handsOn] at ho
      cases ho

/-- A behaviour that hands on its errors owes no value to them. -/
theorem exacting (h : (b .null).OnlyPulls b) : b.Exacting := fun _ _ => h.comes_of_fails

end Script.OnlyPulls

/-! ## Evaluation -/

namespace Program

/-- Whether an edge leads to an input, so that the input has the value of the output that the edge comes from. -/
def Wired (p : Program) (node port : String) (x : Edge) : Prop :=
  ∀ output, p.input output node port = output x.source x.sourcePort

/-- Whether an input has a value or an error of its own, such as its literal. -/
def Fixed (p : Program) (node port : String) (r : Except Raised Value) : Prop :=
  ∀ output, p.input output node port = some r

/-- Whether an input has a value, where `yields` says which outputs have which values. -/
def Feeds (p : Program) (yields : String → String → Value → Prop) (node port : String) (v : Value) : Prop :=
  (∃ x, p.Wired node port x ∧ yields x.source x.sourcePort v) ∨ p.Fixed node port (.ok v)

/-- Whether a node of a kind may come to a result, where `yields` says which outputs have which values and no pull
fails. -/
def Ran (p : Program) (yields : String → String → Value → Prop) (node : String) (k : Kind Behavior) (r : Value) :
    Prop :=
  ∃ b, k.behavior = some b ∧ (b .null).Comes b (p.Feeds yields node) (fun _ => False) (some r)

/-- Whether an output has a value, where `yields` says which outputs have which values: a data-only node is run, and
any other has what is `shown` of it. -/
def Evaluates (p : Program) (shown : String → String → Option Value) (yields : String → String → Value → Prop)
    (node port : String) (v : Value) : Prop :=
  ∃ n k, p.nodeWithKind node = .ok (n, k) ∧ (k.outputPort port).isSome = true ∧
    if k.dataOnly = true then ∃ r, p.Ran yields node k r ∧ (Engine.mergedOutputs k [] r).get? (.str port) = some v
    else shown node port = some v

/-- What an output yields with fewer than `d` outputs nested in it. -/
def YieldsIn (p : Program) (shown : String → String → Option Value) : Nat → String → String → Value → Prop
  | 0 => fun _ _ _ => False
  | d + 1 => p.Evaluates shown (p.YieldsIn shown d)

/-- Whether an output yields a value by evaluation, where outputs of nodes that do not only carry data are what is
`shown` of them. -/
def Yields (p : Program) (shown : String → String → Option Value) (node port : String) (v : Value) : Prop :=
  ∃ d, p.YieldsIn shown d node port v

section Evaluation

variable {p : Program} {yields yields' : String → String → Value → Prop} {shown shown' : String → String → Option Value}
  {node port : String} {n : Node} {k : Kind Behavior} {v : Value}

theorem Feeds.mono (h : p.Feeds yields node port v) (hle : ∀ m q u, yields m q u → yields' m q u) :
    p.Feeds yields' node port v :=
  h.imp_left fun ⟨x, hx, hy⟩ => ⟨x, hx, hle _ _ _ hy⟩

theorem Ran.mono (h : p.Ran yields node k v) (hle : ∀ m q u, yields m q u → yields' m q u) :
    p.Ran yields' node k v := by
  obtain ⟨b, hb, hcomes⟩ := h
  exact ⟨b, hb, hcomes.mono (fun _ _ hfeeds => hfeeds.mono hle) fun _ => id⟩

theorem Evaluates.mono (h : p.Evaluates shown yields node port v) (hle : ∀ m q u, yields m q u → yields' m q u) :
    p.Evaluates shown yields' node port v := by
  obtain ⟨n, k, hn, hp, hv⟩ := h
  refine ⟨n, k, hn, hp, ?_⟩
  split at hv
  · next hd =>
    obtain ⟨r, hr, hv⟩ := hv
    rw [if_pos hd]
    exact ⟨r, hr.mono hle, hv⟩
  · next hd => rwa [if_neg hd]

theorem YieldsIn.succ {d : Nat} (h : p.YieldsIn shown d node port v) : p.YieldsIn shown (d + 1) node port v := by
  induction d generalizing node port v with
  | zero => exact h.elim
  | succ d ih => exact Evaluates.mono h fun m q u => ih

theorem YieldsIn.mono {d d' : Nat} (h : p.YieldsIn shown d node port v) (hle : d ≤ d') :
    p.YieldsIn shown d' node port v := by
  induction hle with
  | refl => exact h
  | step _ ih => exact ih.succ

/-- A run needs only so many outputs nested in its inputs. -/
theorem Ran.bounded (h : p.Ran (p.Yields shown) node k v) : ∃ d, p.Ran (p.YieldsIn shown d) node k v := by
  obtain ⟨b, hb, hcomes⟩ := h
  have hgiven (port : String) (u : Value) (hu : p.Feeds (p.Yields shown) node port u) :
      ∃ d, p.Feeds (p.YieldsIn shown d) node port u := by
    rcases hu with ⟨x, hx, d, hd⟩ | hfixed
    · exact ⟨d, .inl ⟨x, hx, hd⟩⟩
    · exact ⟨0, .inr hfixed⟩
  obtain ⟨d, hd⟩ := (hcomes.mono hgiven fun _ => id).bounded fun d d' hle port u (hu : p.Feeds _ node port u) =>
    hu.mono fun m q w hw => YieldsIn.mono hw hle
  exact ⟨d, b, hb, hd⟩

theorem yields_iff : p.Yields shown node port v ↔ p.Evaluates shown (p.Yields shown) node port v := by
  constructor
  · rintro ⟨d, hd⟩
    cases d with
    | zero => exact hd.elim
    | succ d => exact Evaluates.mono hd fun m q u hu => ⟨d, hu⟩
  · rintro ⟨n, k, hn, hp, hv⟩
    split at hv
    · next hk =>
      obtain ⟨r, hr, hv⟩ := hv
      obtain ⟨d, hd⟩ := hr.bounded
      exact ⟨d + 1, n, k, hn, hp, by rw [if_pos hk]; exact ⟨r, hd, hv⟩⟩
    · next hk => exact ⟨1, n, k, hn, hp, by rwa [if_neg hk]⟩

/-- What an output of a node that does not only carry data yields. -/
theorem yields_shown (hn : p.nodeWithKind node = .ok (n, k)) (hp : (k.outputPort port).isSome = true)
    (hd : k.dataOnly = false) : p.Yields shown node port v ↔ shown node port = some v := by
  rw [yields_iff]
  constructor
  · rintro ⟨n', k', hn', -, hv⟩
    obtain ⟨-, rfl⟩ := Prod.mk.inj (Except.ok.inj (hn.symm.trans hn'))
    simpa [hd] using hv
  · intro hv
    exact ⟨n, k, hn, hp, by simpa [hd] using hv⟩

/-- What an output of a data-only node yields. -/
theorem yields_ran (hn : p.nodeWithKind node = .ok (n, k)) (hp : (k.outputPort port).isSome = true)
    (hd : k.dataOnly = true) : p.Yields shown node port v ↔
      ∃ r, p.Ran (p.Yields shown) node k r ∧ (Engine.mergedOutputs k [] r).get? (.str port) = some v := by
  rw [yields_iff]
  constructor
  · rintro ⟨n', k', hn', -, hv⟩
    obtain ⟨-, rfl⟩ := Prod.mk.inj (Except.ok.inj (hn.symm.trans hn'))
    simpa [hd] using hv
  · intro hv
    exact ⟨n, k, hn, hp, by simpa [hd] using hv⟩

/-- Only what is shown of nodes that do not only carry data matters. -/
theorem yields_congr (h : ∀ node port, p.dataOnly node = false → shown' node port = shown node port) :
    p.Yields shown' = p.Yields shown := by
  have hstep (yields : String → String → Value → Prop) : p.Evaluates shown' yields = p.Evaluates shown yields := by
    funext node port v
    refine propext (exists₂_congr fun n k => and_congr_right fun hn => and_congr_right fun _ => ?_)
    split
    · exact Iff.rfl
    · next hd =>
      rw [h node port]
      simp only [dataOnly, hn, Bool.eq_false_iff.mpr hd]
  have hin (d : Nat) : p.YieldsIn shown' d = p.YieldsIn shown d := by
    induction d with
    | zero => rfl
    | succ d ih => rw [YieldsIn, YieldsIn, ih, hstep]
  funext node port v
  simp only [Yields, hin]

end Evaluation

/-! ## Nodes that are fed by functions -/

/-- Whether nodes of a program are fed by one another alone, where they only carry data, and are then functions. -/
structure Region (p : Program) (N : String → Prop) : Prop where
  closed : ∀ {node port x}, N node → p.dataOnly node = true → p.Wired node port x → N x.source
  shaped : ∀ {node n k}, N node → p.nodeWithKind node = .ok (n, k) → k.Shaped
  functional : ∀ {node n k b}, N node → p.nodeWithKind node = .ok (n, k) → k.dataOnly = true → k.behavior = some b →
    b.Functional

/-- Whether such nodes owe no value to a failure. -/
structure Strict (p : Program) (N : String → Prop) : Prop extends p.Region N where
  exacting : ∀ {node n k b}, N node → p.nodeWithKind node = .ok (n, k) → k.dataOnly = true → k.behavior = some b →
    b.Exacting

/-- A program whose kinds that only carry data are functions. -/
theorem Region.of_kinds {p : Program} (h : ∀ k ∈ p.registry.kinds, k.Shaped ∧ ∀ b, k.dataOnly = true →
    k.behavior = some b → b.Functional) : p.Region fun _ => True :=
  ⟨fun _ _ _ => trivial, fun _ hn => (h _ (mem_kinds hn)).1, fun _ hn hd hb => (h _ (mem_kinds hn)).2 _ hd hb⟩

section Inputs

variable {p : Program} {yields : String → String → Value → Prop} {node port : String} {v : Value}

/-- An input is wired to one output. -/
theorem Wired.unique {x y : Edge} (hx : p.Wired node port x) (hy : p.Wired node port y) :
    x.source = y.source ∧ x.sourcePort = y.sourcePort := by
  classical
  have h := (hx fun m q => if m = x.source ∧ q = x.sourcePort then some (.ok .null) else none).symm.trans (hy _)
  by_contra hne
  rw [if_pos ⟨rfl, rfl⟩, if_neg fun heq => hne ⟨heq.1.symm, heq.2.symm⟩] at h
  cases h

/-- An input that is wired has nothing of its own. -/
theorem Wired.not_fixed {x : Edge} (hx : p.Wired node port x) (r : Except Raised Value) : ¬p.Fixed node port r := by
  intro hr
  cases (hx fun _ _ => none).symm.trans (hr _)

theorem Fixed.unique {r r' : Except Raised Value} (hr : p.Fixed node port r) (hr' : p.Fixed node port r') : r = r' :=
  Option.some.inj ((hr fun _ _ => none).symm.trans (hr' _))

/-- An input has what the output that it is wired to has. -/
theorem Wired.feeds {x : Edge} (hx : p.Wired node port x) :
    p.Feeds yields node port v ↔ yields x.source x.sourcePort v := by
  refine ⟨?_, fun h => .inl ⟨x, hx, h⟩⟩
  rintro (⟨y, hy, hyields⟩ | hfixed)
  · obtain ⟨hsource, hport⟩ := hx.unique hy
    rwa [hsource, hport]
  · exact absurd hfixed (hx.not_fixed _)

/-- An input has what is its own. -/
theorem Fixed.feeds {r : Except Raised Value} (hr : p.Fixed node port r) : p.Feeds yields node port v ↔ r = .ok v := by
  refine ⟨?_, fun h => .inr (h ▸ hr)⟩
  rintro (⟨x, hx, -⟩ | hfixed)
  · exact absurd hr (hx.not_fixed r)
  · exact hr.unique hfixed

end Inputs

namespace Region

variable {p : Program} {N : String → Prop} {shown : String → String → Option Value} {node port : String} {n : Node}
  {k : Kind Behavior} {b : Behavior} {u v : Value}

/-- Inputs have one value where outputs have. -/
theorem feeds_unique {yields : String → String → Value → Prop} (h : p.Region N) (hN : N node)
    (hd : p.dataOnly node = true) (hyields : ∀ m q u v, N m → yields m q u → yields m q v → u = v)
    (hu : p.Feeds yields node port u) (hv : p.Feeds yields node port v) : u = v := by
  rcases hu with ⟨x, hx, hu⟩ | hu
  · exact hyields _ _ _ _ (h.closed hN hd hx) hu (hx.feeds.mp hv)
  · exact Except.ok.inj (hu.feeds.mp hv)

/-- Where inputs have one value each, a node comes to one result. -/
theorem ran_settled {yields : String → String → Value → Prop} (h : p.Region N) (hN : N node)
    (hn : p.nodeWithKind node = .ok (n, k)) (hd : k.dataOnly = true)
    (hyields : ∀ m q u v, N m → yields m q u → yields m q v → u = v) (hb : k.behavior = some b)
    (hv : p.Ran yields node k v) {o : Option Value}
    (ho : (b .null).Comes b (p.Feeds yields node) (fun port => ∀ v, ¬p.Feeds yields node port v) o) : o = some v := by
  obtain ⟨b', hb', hcomes⟩ := hv
  obtain rfl := Option.some.inj (hb.symm.trans hb')
  have hdn : p.dataOnly node = true := by simp only [dataOnly, hn, hd]
  exact (h.functional hN hn hd hb).settled (p.Feeds yields node) (fun port u v => h.feeds_unique hN hdn hyields) o
    (some v) ho (hcomes.mono (fun _ _ hgiven => hgiven) fun _ => False.elim)

theorem unique_in (h : p.Region N) {d : Nat} (hN : N node) (hu : p.YieldsIn shown d node port u)
    (hv : p.YieldsIn shown d node port v) : u = v := by
  induction d generalizing node port u v with
  | zero => exact hu.elim
  | succ d ih =>
    obtain ⟨n, k, hn, -, hu⟩ := hu
    obtain ⟨n', k', hn', -, hv⟩ := hv
    obtain ⟨rfl, rfl⟩ := Prod.mk.inj (Except.ok.inj (hn.symm.trans hn'))
    split at hu
    · next hd =>
      rw [if_pos hd] at hv
      obtain ⟨r, hr, hu⟩ := hu
      obtain ⟨r', ⟨b, hb, hcomes⟩, hv⟩ := hv
      have hyields : ∀ m q u v, N m → p.YieldsIn shown d m q u → p.YieldsIn shown d m q v → u = v := fun _ _ _ _ => ih
      have hsame := h.ran_settled hN hn hd hyields hb hr (hcomes.mono (fun _ _ hgiven => hgiven) fun _ => False.elim)
      obtain rfl := Option.some.inj hsame
      exact Option.some.inj (hu.symm.trans hv)
    · next hd =>
      rw [if_neg hd] at hv
      exact Option.some.inj (hu.symm.trans hv)

/-- An output yields at most one value. -/
theorem unique (h : p.Region N) (hN : N node) (hu : p.Yields shown node port u) (hv : p.Yields shown node port v) :
    u = v := by
  obtain ⟨d, hd⟩ := hu
  obtain ⟨d', hd'⟩ := hv
  exact h.unique_in hN (hd.mono (le_max_left d d')) (hd'.mono (le_max_right d d'))

/-- A node comes to at most one result, and to none where it comes to an error. -/
theorem settled (h : p.Region N) (hN : N node) (hn : p.nodeWithKind node = .ok (n, k)) (hd : k.dataOnly = true)
    (hb : k.behavior = some b) (hv : p.Ran (p.Yields shown) node k v) {o : Option Value}
    (ho : (b .null).Comes b (p.Feeds (p.Yields shown) node)
      (fun port => ∀ v, ¬p.Feeds (p.Yields shown) node port v) o) : o = some v := by
  have hyields : ∀ m q u v, N m → p.Yields shown m q u → p.Yields shown m q v → u = v := fun _ _ _ _ => h.unique
  exact h.ran_settled hN hn hd hyields hb hv ho

/-- A node comes to at most one result. -/
theorem ran_unique (h : p.Region N) (hN : N node) (hn : p.nodeWithKind node = .ok (n, k)) (hd : k.dataOnly = true)
    (hu : p.Ran (p.Yields shown) node k u) (hv : p.Ran (p.Yields shown) node k v) : u = v := by
  obtain ⟨b, hb, hcomes⟩ := hu
  exact Option.some.inj (h.settled hN hn hd hb hv (hcomes.mono (fun _ _ hgiven => hgiven) fun _ => False.elim))

end Region

end Program

end Patchbay
