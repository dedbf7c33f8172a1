import Patchbay.Proofs.Functions
import Patchbay.Proofs.Seeds
import Patchbay.Proofs.Transparency

/-!
# What a scope vouches for

In a trigger a data-only node is remembered with the outputs that it has read. Where it is a function of its inputs,
its outputs are those of a run, now and wherever the outputs that it has read are as they are shown now. When one of
them is published again the node is out of date, and is run anew before it is used.

Contents:
* `Engine.Suits`: whether an engine has nodes as a program has them.
* `Noted`, `Vouched`: notes on outputs, and what holds wherever the noted outputs are as they are shown.
* `Attests`, `Upheld`: that what a scope remembers comes from runs.
* `Ages`, `Undisturbed`: later scopes, and scopes that show the same.

Results:
* `Attests.later`: what is remembered is out of date later, or still right.
* `Upheld.store`: the outputs of a node that has run are stored.
-/

namespace Patchbay

/-! ## Nodes of a program -/

/-- What a scope shows of an output. -/
def Scope.shown (sc : Scope) (node port : String) : Option Value := (sc.outputsOf node).get? (.str port)

/-- Whether an engine has the kinds and the inputs that some nodes of a program have. -/
structure Engine.Suits (e : Engine) (p : Program) (N : String → Prop) : Prop where
  kinds : ∀ node, N node → ∀ k, (∃ n, e.nodeWithKind node = .ok (n, k)) ↔ ∃ n, p.nodeWithKind node = .ok (n, k)
  inputs : ∀ node, N node → ∀ port output, e.program.input output node port = p.input output node port

theorem Engine.Suits.of_program {e : Engine} {p : Program} (h : e.program = p) (N : String → Prop) : e.Suits p N := by
  refine ⟨fun node _ k => ?_, fun node _ port output => by rw [h]⟩
  rw [← h, e.nodeWithKind_program]
  constructor
  · rintro ⟨n, hn⟩
    exact ⟨n.bare, by rw [hn]; rfl⟩
  · rintro ⟨n, hn⟩
    cases hm : e.nodeWithKind node with
    | error err =>
      rw [hm] at hn
      cases hn
    | ok x =>
      rw [hm] at hn
      obtain ⟨-, rfl⟩ := Prod.mk.inj (Except.ok.inj hn)
      exact ⟨x.1, rfl⟩

section Suits

variable {e : Engine} {p : Program} {N : String → Prop} {s : Strand} {node port : String} {n : Node} {k : Kind Behavior}

theorem Engine.Suits.nodeWithKind (h : e.Suits p N) (hN : N node) (hn : e.nodeWithKind node = .ok (n, k)) :
    ∃ m, p.nodeWithKind node = .ok (m, k) :=
  (h.kinds node hN k).mp ⟨n, hn⟩

theorem Engine.Suits.pullInput_wired_or_fixed (h : e.Suits p N) (hN : N node) :
    (∃ x, p.Wired node port x ∧ e.pullInput s node port = e.go s (.call (.output x.source x.sourcePort))) ∨
      ∃ r, p.Fixed node port r ∧ e.pullInput s node port = e.go s (endOf r) := by
  rcases e.pullInput_wired_or_fixed s node port with ⟨x, hx, heq⟩ | ⟨r, hr, heq⟩
  · exact .inl ⟨x, fun output => (h.inputs node hN port output).symm.trans (hx output), heq⟩
  · exact .inr ⟨r, fun output => (h.inputs node hN port output).symm.trans (hr output), heq⟩

end Suits

/-! ## Notes -/

/-- Whether notes say of outputs what is current, and of none but those of nodes that do not only carry data. -/
def Noted (p : Program) (N : String → Prop) (sc : Scope) (ds : Dependencies) : Prop :=
  ∀ x ∈ ds, x.1.Textual ∧
    ∀ m q, x.1 = .output m (.str q) → N m ∧ p.dataOnly m = false ∧ x.2 = sc.epoch m (.str q)

/-- Whether the outputs that were noted are as a scope shows them. -/
def Scope.AgreesOn (sc : Scope) (ds : Dependencies) (shown : String → String → Option Value) : Prop :=
  ∀ m q u, (Dependency.output m (.str q), u) ∈ ds → shown m q = sc.shown m q

/-- Whether something holds wherever the outputs that were noted are as they are shown now. -/
structure Vouched (p : Program) (N : String → Prop) (sc : Scope) (ds : Dependencies)
    (Q : (String → String → Option Value) → Prop) : Prop where
  noted : Noted p N sc ds
  holds : ∀ shown, sc.AgreesOn ds shown → Q shown

section Notes

variable {p : Program} {N : String → Prop} {sc : Scope} {ds es : Dependencies}
  {Q Q' : (String → String → Option Value) → Prop} {shown : String → String → Option Value}

theorem Scope.AgreesOn.refl (sc : Scope) (ds : Dependencies) : sc.AgreesOn ds sc.shown := fun _ _ _ _ => rfl

theorem Scope.AgreesOn.of_keys (h : sc.AgreesOn es shown) (hkeys : ∀ x ∈ ds, ∃ u, (x.1, u) ∈ es) :
    sc.AgreesOn ds shown := by
  intro m q u hmem
  obtain ⟨u', hu'⟩ := hkeys _ hmem
  exact h m q u' hu'

theorem Noted.nil : Noted p N sc [] := by simp [Noted]

theorem Noted.merge (h : Noted p N sc ds) (h' : Noted p N sc es) : Noted p N sc (ds.merge es) := by
  intro x hx
  rcases Dependencies.mem_merge (fun y hy => (h' y hy).1) hx with hx | hx
  · exact h x hx
  · exact h' x hx

/-- A variable was read. -/
theorem Noted.note (h : Noted p N sc ds) {d : Dependency} (hd : ∀ m q, d ≠ .output m q) (version : Nat) :
    Noted p N sc (ds.note d version) := by
  have htext : d.Textual := by
    cases d with
    | output m q => exact absurd rfl (hd m q)
    | oneVariable name => trivial
    | allVariables => trivial
  intro x hx
  rcases Dependencies.mem_note htext hx with rfl | hx
  · exact ⟨htext, fun m q heq => absurd heq (hd m _)⟩
  · exact h x hx

theorem Vouched.mono (h : Vouched p N sc ds Q) (hQ : ∀ shown, Q shown → Q' shown) : Vouched p N sc ds Q' :=
  ⟨h.noted, fun shown hshown => hQ shown (h.holds shown hshown)⟩

/-- It holds of what is shown now. -/
theorem Vouched.now (h : Vouched p N sc ds Q) : Q sc.shown := h.holds sc.shown (.refl sc ds)

end Notes

/-! ## What a scope remembers -/

/-- Whether what is remembered of a data-only node is right: while the outputs that it has read are as it has read
them, the outputs that it has come from a run, wherever those are so. -/
structure Attests (p : Program) (N : String → Prop) (sc : Scope) (node : String) (ds : Dependencies) : Prop where
  seen : ∀ x ∈ ds, x.1.Textual ∧
    ∀ m q, x.1 = .output m (.str q) → N m ∧ p.dataOnly m = false ∧ x.2 ≤ sc.epoch m (.str q)
  current : (∀ m q u, (Dependency.output m (.str q), u) ∈ ds → sc.epoch m (.str q) = u) →
    ∀ shown, sc.AgreesOn ds shown → ∃ n k r, p.nodeWithKind node = .ok (n, k) ∧ p.Ran (p.Yields shown) node k r ∧
      ∀ q, sc.shown node q = (Engine.mergedOutputs k [] r).get? (.str q)

/-- Whether what a scope remembers is right, and nodes whose outputs are being resolved have none yet. -/
structure Upheld (p : Program) (N : String → Prop) (sc : Scope) : Prop where
  attests : ∀ node ds, N node → p.dataOnly node = true → sc.cached? node = some ds → Attests p N sc node ds
  clear : ∀ node, N node → p.dataOnly node = true → node ∈ sc.path.map Prod.fst → sc.outputsOf node = []

/-- A later scope of a trigger: an output that has not been published anew is as it was. -/
def Ages (p : Program) (N : String → Prop) (sc sc' : Scope) : Prop :=
  ∀ m q, N m → p.dataOnly m = false → sc.epoch m (.str q) ≤ sc'.epoch m (.str q) ∧
    (sc'.epoch m (.str q) = sc.epoch m (.str q) → sc'.shown m q = sc.shown m q)

/-- Whether a scope shows the outputs that another shows, of nodes that do not only carry data. -/
def Undisturbed (p : Program) (sc sc' : Scope) : Prop := ∀ node, p.dataOnly node = false → sc.Agrees node sc'

section Scopes

variable {p : Program} {N : String → Prop} {sc sc' sc'' : Scope} {node : String} {ds : Dependencies}
  {Q : (String → String → Option Value) → Prop} {shown : String → String → Option Value}

/-- What is remembered is out of date later, or still right. -/
theorem Attests.later (h : Attests p N sc node ds) (hages : Ages p N sc sc')
    (hshown : (∀ m q u, (Dependency.output m (.str q), u) ∈ ds → sc.epoch m (.str q) = u) →
      ∀ q, sc'.shown node q = sc.shown node q) : Attests p N sc' node ds := by
  refine ⟨fun x hx => ⟨(h.seen x hx).1, fun m q heq => ?_⟩, fun hcurrent shown hagree => ?_⟩
  · obtain ⟨hN, hd, hle⟩ := (h.seen x hx).2 m q heq
    exact ⟨hN, hd, hle.trans (hages m q hN hd).1⟩
  · -- an output whose epoch is what was seen has not moved in between
    have hsame : ∀ m q u, (Dependency.output m (.str q), u) ∈ ds →
        sc.epoch m (.str q) = u ∧ sc'.shown m q = sc.shown m q := by
      intro m q u hmem
      obtain ⟨hN, hd, hle⟩ := (h.seen _ hmem).2 m q rfl
      have hold : sc.epoch m (.str q) = u :=
        le_antisymm ((hages m q hN hd).1.trans (hcurrent m q u hmem).le) hle
      exact ⟨hold, (hages m q hN hd).2 ((hcurrent m q u hmem).trans hold.symm)⟩
    have hold : ∀ m q u, (Dependency.output m (.str q), u) ∈ ds → sc.epoch m (.str q) = u :=
      fun m q u hmem => (hsame m q u hmem).1
    obtain ⟨n, k, r, hn, hran, hout⟩ := h.current hold shown
      fun m q u hmem => (hagree m q u hmem).trans (hsame m q u hmem).2
    exact ⟨n, k, r, hn, hran, fun q => (hshown hold q).trans (hout q)⟩

namespace Undisturbed

theorem refl (p : Program) (sc : Scope) : Undisturbed p sc sc := fun _ _ => .refl sc

theorem trans (h : Undisturbed p sc sc') (h' : Undisturbed p sc' sc'') : Undisturbed p sc sc'' :=
  fun node hd => (h node hd).trans (h' node hd)

theorem of_eq (ho : sc'.outputs = sc.outputs) (he : sc'.epochs = sc.epochs) : Undisturbed p sc sc' :=
  fun _ _ => .of_eq ho he

theorem shown_eq (h : Undisturbed p sc sc') {m : String} (hd : p.dataOnly m = false) (q : String) :
    sc'.shown m q = sc.shown m q := by
  rw [Scope.shown, Scope.shown, (h m hd).outputs]

theorem yields_eq (h : Undisturbed p sc sc') : p.Yields sc'.shown = p.Yields sc.shown :=
  Program.yields_congr fun _ q hd => h.shown_eq hd q

theorem ages (h : Undisturbed p sc sc') : Ages p N sc sc' :=
  fun m q _ hd => ⟨((h m hd).epochs q).ge, fun _ => h.shown_eq hd q⟩

theorem noted (h : Undisturbed p sc sc') (hds : Noted p N sc ds) : Noted p N sc' ds := by
  refine fun x hx => ⟨(hds x hx).1, fun m q heq => ?_⟩
  obtain ⟨hN, hd, hcurrent⟩ := (hds x hx).2 m q heq
  exact ⟨hN, hd, hcurrent.trans ((h m hd).epochs q).symm⟩

theorem agreesOn (h : Undisturbed p sc sc') (hds : Noted p N sc ds) (hagree : sc'.AgreesOn ds shown) :
    sc.AgreesOn ds shown :=
  fun m q u hmem => (hagree m q u hmem).trans (h.shown_eq ((hds _ hmem).2 m q rfl).2.1 q)

theorem vouched (h : Undisturbed p sc sc') (hv : Vouched p N sc ds Q) : Vouched p N sc' ds Q :=
  ⟨h.noted hv.noted, fun shown hagree => hv.holds shown (h.agreesOn hv.noted hagree)⟩

/-- A data-only node is reset, or has new outputs. -/
theorem resetNode (sc : Scope) (hd : p.dataOnly node = true) : Undisturbed p sc (sc.resetNode node) := by
  refine fun m hm => .resetNode sc ?_
  rintro rfl
  rw [hm] at hd
  cases hd

theorem withOutputs (sc : Scope) (hd : p.dataOnly node = true) (d : Dict) :
    Undisturbed p sc (sc.withOutputs node d) := by
  refine fun m hm => .withOutputs sc ?_ d
  rintro rfl
  rw [hm] at hd
  cases hd

end Undisturbed

namespace Upheld

/-- A scope that is later, and has what was remembered of nodes that only carry data. -/
theorem later (h : Upheld p N sc) (hages : Ages p N sc sc')
    (hcached : ∀ m, N m → p.dataOnly m = true → sc'.cached? m = sc.cached? m)
    (hout : ∀ m, N m → p.dataOnly m = true → sc'.outputsOf m = sc.outputsOf m)
    (hpath : ∀ m, N m → m ∈ sc'.path.map Prod.fst → m ∈ sc.path.map Prod.fst) : Upheld p N sc' := by
  refine ⟨fun m ds hN hd hc => ?_, fun m hN hd hm => ?_⟩
  · rw [hcached m hN hd] at hc
    exact (h.attests m ds hN hd hc).later hages fun _ q => by rw [Scope.shown, Scope.shown, hout m hN hd]
  · rw [hout m hN hd]
    exact h.clear m hN hd (hpath m hN hm)

/-- A change of anything else. -/
theorem of_eq (h : Upheld p N sc) (ho : sc'.outputs = sc.outputs) (he : sc'.epochs = sc.epochs)
    (hc : sc'.cached = sc.cached) (hp : sc'.path = sc.path) : Upheld p N sc' := by
  refine h.later (Undisturbed.of_eq ho he).ages (fun m _ _ => ?_) (fun m _ _ => ?_) fun m _ hm => ?_
  · rw [Scope.cached?, Scope.cached?, hc]
  · rw [Scope.outputsOf, Scope.outputsOf, ho]
  · rwa [hp] at hm

/-- An output is given up. -/
theorem leave (h : Upheld p N sc) (node : String) : Upheld p N (sc.leave node) := by
  refine h.later (Undisturbed.of_eq rfl rfl).ages (fun _ _ _ => rfl) (fun _ _ _ => rfl) fun m _ hm => ?_
  rw [show (sc.leave node).path = sc.path.dropLast from rfl, List.map_dropLast] at hm
  exact List.mem_of_mem_dropLast hm

/-- A data-only node begins to run for one of its outputs. -/
theorem enter (h : Upheld p N sc) (hd : p.dataOnly node = true) (port : String) :
    Upheld p N ((sc.resetNode node).enter node port) := by
  have hstill : Undisturbed p sc ((sc.resetNode node).enter node port) :=
    (Undisturbed.resetNode sc hd).trans (.of_eq rfl rfl)
  have hout : ∀ m, ((sc.resetNode node).enter node port).outputsOf m = if m = node then [] else sc.outputsOf m :=
    fun m => Scope.outputsOf_resetNode sc node m
  refine ⟨fun m ds hN hdm hc => ?_, fun m hN hdm hm => ?_⟩
  · have hne : m ≠ node := by
      rintro rfl
      have hnone := Scope.cached?_resetNode_self sc m
      rw [show (sc.resetNode m).cached? m = some ds from hc] at hnone
      cases hnone
    have hc' : sc.cached? m = some ds := (Scope.cached?_resetNode sc hne).symm.trans hc
    exact (h.attests m ds hN hdm hc').later hstill.ages fun _ q => by rw [Scope.shown, Scope.shown, hout, if_neg hne]
  · rw [hout]
    split
    · rfl
    · next hne =>
      refine h.clear m hN hdm ?_
      have hm' : m ∈ (sc.path ++ [(node, port)]).map Prod.fst := hm
      simpa [hne] using hm'

/-- The outputs of a data-only node that has run are stored. -/
theorem store (h : Upheld p N sc) (hnodup : (sc.path.map Prod.fst).Nodup) {before : List String}
    (hpath : sc.path.map Prod.fst = before ++ [node]) (hd : p.dataOnly node = true) {n : Node} {k : Kind Behavior}
    (hn : p.nodeWithKind node = .ok (n, k)) {v : Value}
    (hv : Vouched p N sc ds fun shown => p.Ran (p.Yields shown) node k v) :
    Upheld p N (((sc.leave node).withOutputs node (Engine.mergedOutputs k [] v)).cache node ds) := by
  obtain ⟨sc', hsc'⟩ : ∃ sc',
      sc' = ((sc.leave node).withOutputs node (Engine.mergedOutputs k [] v)).cache node ds := ⟨_, rfl⟩
  have hleave : Undisturbed p sc (sc.leave node) := .of_eq rfl rfl
  have hstill : Undisturbed p sc sc' :=
    hsc' ▸ (hleave.trans (.withOutputs (sc.leave node) hd _)).trans (.of_eq rfl rfl)
  have hout : ∀ m, sc'.outputsOf m = if m = node then Engine.mergedOutputs k [] v else sc.outputsOf m :=
    fun m => hsc' ▸ Scope.outputsOf_withOutputs (sc.leave node) node m _
  have hcached : ∀ m, sc'.cached? m = if m = node then some ds else sc.cached? m :=
    fun m => hsc' ▸ Scope.cached?_cache _ node m ds
  have hbefore : sc'.path.map Prod.fst = before := by
    have hmap : sc'.path.map Prod.fst = (sc.path.map Prod.fst).dropLast := hsc' ▸ List.map_dropLast
    rw [hmap, hpath, List.dropLast_concat]
  rw [← hsc']
  refine ⟨fun m es hN hdm hc => ?_, fun m hN hdm hm => ?_⟩
  · rw [hcached] at hc
    split at hc
    · next heq =>
      obtain rfl := Option.some.inj hc
      subst heq
      have hnoted := hstill.noted hv.noted
      refine ⟨fun x hx => ⟨(hnoted x hx).1, fun m' q heq => ?_⟩, fun _ shown hagree => ⟨n, k, v, hn, ?_, fun q => ?_⟩⟩
      · obtain ⟨hNm, hdm', hcurrent⟩ := (hnoted x hx).2 m' q heq
        exact ⟨hNm, hdm', hcurrent.le⟩
      · exact hv.holds shown (hstill.agreesOn hv.noted hagree)
      · rw [Scope.shown, hout, if_pos rfl]
    · next hne =>
      exact (h.attests m es hN hdm hc).later hstill.ages fun _ q => by rw [Scope.shown, Scope.shown, hout, if_neg hne]
  · rw [hbefore] at hm
    have hne : m ≠ node := by
      rintro rfl
      rw [hpath, List.nodup_append] at hnodup
      exact hnodup.2.2 m hm m (List.mem_singleton_self m) rfl
    rw [hout, if_neg hne]
    exact h.clear m hN hdm (by rw [hpath]; exact List.mem_append_left _ hm)

end Upheld

end Scopes

end Patchbay
