import Patchbay.Proofs.Beats
import Patchbay.Proofs.Upstream

/-!
# Pulls in a trigger

A trigger runs nodes that publish, wait, write and pull, and resolves outputs for them. Where the nodes that an
output is fed by are functions of their inputs, and stay as they are while the trigger goes on, a pull of it has the
value that evaluation yields of what is shown at the time, whatever the other nodes and other triggers do.

Contents:
* `Frame.Foreign`, `Signal.Foreign`: frames and signals that are of no data-only node of a region.
* `Truthful`: what holds of the strand of a trigger all along.
* `Pulls`: an output is resolved, from a call of it to its end.

Results:
* `Truthful.turn`: every turn of such a strand.
* `truthful_run`: the strand of a trigger, from its beginning on.
* `pulls_present`: what a pull has is what evaluation yields then.
* `Resolves.of_heights`: a resolution is known by the heights of the frames of its strand.
-/

namespace Patchbay

/-! ## Dictionaries -/

theorem Dict.get?_set_self (d : Dict) (s : String) (v : Value) : (d.set (.str s) v).get? (.str s) = some v := by
  induction d with
  | nil => simp [set, get?, Value.same]
  | cons x rest ih =>
    rw [set]
    split
    · next h => simp [get?, h]
    · next h => simpa [get?, List.find?_cons, h] using ih

/-- What the entries of another dictionary put under a text, they put there whatever there was before. -/
theorem Dict.get?_update (es : Dict) (s : String) :
    ∃ o : Option Value, ∀ d : Dict, (d.update es).get? (.str s) = o.or (d.get? (.str s)) := by
  induction es with
  | nil => exact ⟨none, fun d => rfl⟩
  | cons x rest ih =>
    obtain ⟨o, ho⟩ := ih
    obtain ⟨k, v⟩ := x
    by_cases hk : k = .str s
    · refine ⟨o.or (some v), fun d => ?_⟩
      subst hk
      have hd : (d.update ((.str s, v) :: rest)).get? (.str s) = o.or ((d.set (.str s) v).get? (.str s)) :=
        ho (d.set (.str s) v)
      rw [hd, get?_set_self]
      cases o <;> rfl
    · refine ⟨o, fun d => ?_⟩
      have hd : (d.update ((k, v) :: rest)).get? (.str s) = o.or ((d.set k v).get? (.str s)) := ho (d.set k v)
      rw [hd, get?_set_of_ne d v hk]

/-- To put entries again that are there changes nothing. -/
theorem Dict.get?_update_again {d es : Dict} {s : String}
    (h : d.get? (.str s) = (update [] es).get? (.str s)) : (d.update es).get? (.str s) = d.get? (.str s) := by
  obtain ⟨o, ho⟩ := get?_update es s
  rw [ho, h, ho]
  cases o <;> rfl

/-! ## Scopes -/

section Scopes

variable {p : Program} {N : String → Prop} {sc sc' sc'' : Scope} {node : String}

theorem Ages.trans (h : Ages p N sc sc') (h' : Ages p N sc' sc'') : Ages p N sc sc'' := by
  intro m q hN hd
  obtain ⟨hle, hsame⟩ := h m q hN hd
  obtain ⟨hle', hsame'⟩ := h' m q hN hd
  refine ⟨hle.trans hle', fun heq => ?_⟩
  have hmid : sc'.epoch m (.str q) = sc.epoch m (.str q) := le_antisymm (hle'.trans heq.le) hle
  exact (hsame' (heq.trans hmid.symm)).trans (hsame hmid)

theorem Ages.publish (p : Program) (N : String → Prop) (sc : Scope) (node : String) (port v : Value) :
    Ages p N sc (sc.publish node port v) := by
  refine fun m q _ _ => ⟨Scope.epoch_le_publish sc node m port v q, fun heq => ?_⟩
  refine Scope.get?_outputsOf_publish_of_ne sc v fun h => ?_
  obtain ⟨rfl, rfl⟩ := h
  rw [Scope.epoch_publish_self] at heq
  omega

theorem Ages.publishAll (node : String) (es : Dict) (sc : Scope) :
    Ages p N sc (es.foldl (fun sc x => sc.publish node x.1 x.2) sc) := by
  induction es generalizing sc with
  | nil => exact (Undisturbed.refl p sc).ages
  | cons x rest ih => exact (Ages.publish p N sc node x.1 x.2).trans (ih _)

theorem Scope.outputsOf_publishAll_self (node : String) (es : Dict) (sc : Scope) :
    (es.foldl (fun sc x => sc.publish node x.1 x.2) sc).outputsOf node = (sc.outputsOf node).update es := by
  induction es generalizing sc with
  | nil => rfl
  | cons x rest ih =>
    rw [List.foldl_cons, ih, outputsOf_publish, if_pos rfl]
    rfl

theorem Scope.outputsOf_publishAll_of_ne {other : String} (h : other ≠ node) (es : Dict) (sc : Scope) :
    (es.foldl (fun sc x => sc.publish node x.1 x.2) sc).outputsOf other = sc.outputsOf other :=
  (Scope.Agrees.publishAll h es sc).outputs

namespace Upheld

/-- A node that is not data-only, or of another region, publishes outputs. -/
theorem publishAll (h : Upheld p N sc) (hnode : ¬(N node ∧ p.dataOnly node = true)) (es : Dict) :
    Upheld p N (es.foldl (fun sc x => sc.publish node x.1 x.2) sc) := by
  have hext := Scope.Extends.publishAll node es sc
  refine h.later (.publishAll node es sc) (fun m _ _ => ?_) (fun m hN hd => ?_) fun m _ hm => ?_
  · rw [Scope.cached?, Scope.cached?, hext.cached]
  · have hne : m ≠ node := fun heq => hnode (by rw [← heq]; exact ⟨hN, hd⟩)
    exact Scope.outputsOf_publishAll_of_ne hne es sc
  · rwa [hext.path] at hm

/-- A data-only node that was run by control flow publishes the outputs that it came to. -/
theorem publishRun (h : Upheld p N sc) (hr : p.Region N) {n : Node} {k : Kind Behavior} (hN : N node)
    (hn : p.nodeWithKind node = .ok (n, k)) (hd : k.dataOnly = true) {es : Dict}
    (hran : p.Ran (p.Yields sc.shown) node k (.dict es)) (hidle : node ∉ sc.path.map Prod.fst) :
    Upheld p N (es.foldl (fun sc x => sc.publish node x.1 x.2) sc) := by
  have hext := Scope.Extends.publishAll node es sc
  have hages : Ages p N sc (es.foldl (fun sc x => sc.publish node x.1 x.2) sc) := .publishAll node es sc
  refine ⟨fun m ds hNm hdm hc => ?_, fun m hNm hdm hm => ?_⟩
  · rw [Scope.cached?, hext.cached] at hc
    have hattests := h.attests m ds hNm hdm hc
    refine hattests.later hages fun hcurrent q => ?_
    by_cases hm : m = node
    · -- what it had was what a run comes to
      subst hm
      obtain ⟨n', k', r, hn', hr', hout⟩ := hattests.current hcurrent sc.shown (.refl sc ds)
      obtain ⟨-, rfl⟩ := Prod.mk.inj (Except.ok.inj (hn.symm.trans hn'))
      obtain rfl := hr.ran_unique hNm hn hd hran hr'
      rw [Scope.shown, Scope.outputsOf_publishAll_self]
      exact Dict.get?_update_again (hout q)
    · rw [Scope.shown, Scope.shown, Scope.outputsOf_publishAll_of_ne hm]
  · rw [hext.path] at hm
    have hne : m ≠ node := fun heq => hidle (heq ▸ hm)
    rw [Scope.outputsOf_publishAll_of_ne hne]
    exact h.clear m hNm hdm hm

/-- A change of nodes elsewhere. -/
theorem elsewhere (h : Upheld p N sc) (hout : ∀ m, N m → sc'.outputsOf m = sc.outputsOf m)
    (he : sc'.epochs = sc.epochs) (hcached : ∀ m, N m → sc'.cached? m = sc.cached? m)
    (hpath : ∀ m, N m → m ∈ sc'.path.map Prod.fst → m ∈ sc.path.map Prod.fst) : Upheld p N sc' := by
  refine h.later (fun m q hN _ => ⟨?_, fun _ => ?_⟩) (fun m hN _ => hcached m hN) (fun m hN _ => hout m hN) hpath
  · rw [Scope.epoch, Scope.epoch, he]
  · rw [Scope.shown, Scope.shown, hout m hN]

end Upheld

end Scopes

/-! ## Strands -/

section Strands

variable (p : Program) (N : String → Prop)

/-- Whether a frame is of no data-only node of a region. -/
def Frame.Foreign : Frame → Prop
  | .behavior i _ _ => ¬(N i.node ∧ p.dataOnly i.node = true)
  | .output node _ _ => ¬N node
  | _ => True

/-- Whether what a strand does next is of no data-only node of a region, and resolves no output of a region. -/
def Signal.Foreign : Signal → Prop
  | .call (.invoke i) => ¬(N i.node ∧ p.dataOnly i.node = true)
  | .call (.behave i _) => ¬(N i.node ∧ p.dataOnly i.node = true)
  | .call (.output node _) => ¬N node
  | .back (.invoked _ i) => ¬(N i.node ∧ p.dataOnly i.node = true)
  | _ => True

/-- Whether what a strand does at its next turn is of no data-only node of a region. -/
def Parked.Foreign : Parked → Prop
  | .turn sig => sig.Foreign p N
  | _ => True

/-- The frames that resolutions are begun on: some others wait for a value, or control flow runs a data-only node. -/
def Underlies : Goal → List Frame → Prop
  | .output _ _, fs => (∀ f ∈ fs, f.Foreign p N) ∧ ∃ nodes as, Stacked .value fs nodes as
  | .run _, fs => ∃ agenda rest, fs = .walk agenda :: rest ∧ ∀ f ∈ rest, f.Foreign p N
  | _, _ => False

/-- What holds of the strand of a trigger all along: what its scope remembers is right, and it is in the midst of a
resolution, or no data-only node of the region is run. -/
structure Truthful (blame : Prop) (x : Strand × Parked) : Prop where
  upheld : Upheld p N x.1.scope
  stands : ((∀ f ∈ x.1.frames, f.Foreign p N) ∧ x.2.Foreign p N) ∨
    Poised p N blame (Underlies p N) x.1.scope x.1.frames x.2

end Strands

variable {p : Program} {N : String → Prop} {blame : Prop} {e e' : Engine} {s s' : Strand}

theorem Frame.Outer.foreign {f : Frame} (h : f.Outer) : f.Foreign p N := by
  cases f with
  | behavior | output => exact h.elim
  | _ => trivial

section Turns

/-- A turn that leaves its strand with something to do for others. -/
theorem goes_truthful (hw : e.Welcomes e') {sig : Signal} (hf : ∀ f ∈ s'.frames, f.Foreign p N)
    (hsig : sig.Foreign p N) (hup : Upheld p N s'.scope) :
    e.Stays (Truthful p N blame) (e'.go s' sig) :=
  .go hw (.inr ⟨hup, .inl ⟨hf, hsig⟩⟩)

/-- A turn after which its strand has something to do for others later. -/
theorem parks_truthful (hw : e.Welcomes e') {q : Parked} (hf : ∀ f ∈ s'.frames, f.Foreign p N)
    (hq : q.Foreign p N) (hup : Upheld p N s'.scope) :
    e.Stays (Truthful p N blame) ⟨e'.park s' q, none⟩ :=
  .park hw (.inr ⟨hup, .inl ⟨hf, hq⟩⟩)

theorem failInvocation_truthful (hw : e.Welcomes e') (hup : Upheld p N s.scope) (i : Invocation) (err : Raised)
    (hf : ∀ f ∈ s.frames, f.Foreign p N) : e.Stays (Truthful p N blame) (e'.failInvocation s i err) := by
  rw [Engine.failInvocation_eq]
  split
  · exact goes_truthful hw hf trivial hup
  · have hreport : e.Welcomes (e'.report s.scope i (err.atInvocation s.scope.trigger i)).2 := hw
    exact goes_truthful hreport hf trivial hup

theorem walk_truthful (hsuits : e.Suits p N) (hup : Upheld p N s.scope) (agenda : List String)
    (hf : ∀ f ∈ s.frames, f.Foreign p N) : e.Stays (Truthful p N blame) (e.walk s agenda) := by
  have hsame : e.Welcomes e := .of_eq rfl
  have hcases := e.walk_cases s agenda
  generalize e.walk s agenda = t at hcases ⊢
  cases hcases with
  | done | stopped | unknown => exact goes_truthful hsame hf trivial hup
  | @invokes node rest n k _ _ hn =>
    by_cases hrun : N node ∧ p.dataOnly node = true
    · obtain ⟨hN, hd⟩ := hrun
      obtain ⟨m, hm⟩ := hsuits.nodeWithKind hN hn
      have hk : k.dataOnly = true := by simpa only [Program.dataOnly, hm] using hd
      refine .go hsame (.inr ⟨hup, .inr (.invokes ⟨hN, ⟨m, hm⟩, hk⟩ rfl (.base ?_))⟩)
      exact ⟨rest, s.frames, rfl, hf⟩
    · exact goes_truthful hsame (List.forall_mem_cons.mpr ⟨trivial, hf⟩) hrun hup
  | passes => exact goes_truthful (.of_eq rfl) hf trivial (hup.of_eq rfl rfl rfl rfl)

theorem invoke_truthful (hup : Upheld p N s.scope) {i : Invocation} (hi : ¬(N i.node ∧ p.dataOnly i.node = true))
    (hf : ∀ f ∈ s.frames, f.Foreign p N) : e.Stays (Truthful p N blame) (e.invoke s i) := by
  unfold Engine.invoke
  dsimp only
  split
  · exact goes_truthful (.of_eq rfl) hf hi hup
  · exact failInvocation_truthful (.of_eq rfl) hup i _ hf

theorem awaitFor_truthful (hup : Upheld p N s.scope) {i : Invocation} {w : Wait} {k : Except Raised w.Reply → Script}
    (hi : ¬(N i.node ∧ p.dataOnly i.node = true)) (hf : ∀ f ∈ s.frames, f.Foreign p N) :
    e.Stays (Truthful p N blame) (e.awaitFor s i w k) := by
  have hsame : e.Welcomes e := .of_eq rfl
  cases w with
  | pull port => exact goes_truthful hsame (List.forall_mem_cons.mpr ⟨hi, hf⟩) trivial hup
  | advance port =>
    simp only [Engine.awaitFor]
    split
    · exact goes_truthful hsame hf hi hup
    · exact goes_truthful hsame (List.forall_mem_cons.mpr ⟨hi, hf⟩) trivial hup
  | checkpoint => exact parks_truthful (.of_eq rfl) (List.forall_mem_cons.mpr ⟨hi, hf⟩) trivial hup
  | sleep seconds =>
    simp only [Engine.awaitFor]
    split
    · exact goes_truthful hsame hf hi hup
    · exact parks_truthful (.of_eq rfl) (List.forall_mem_cons.mpr ⟨hi, hf⟩) trivial hup

theorem Upheld.perform (hup : Upheld p N s.scope) (e : Engine) {i : Invocation}
    (hi : ¬(N i.node ∧ p.dataOnly i.node = true)) (q : Query) : Upheld p N (e.perform i s.scope q).scope := by
  cases q with
  | memoize port v => exact hup.publishAll hi [(.str port, v)]
  | _ => exact hup

theorem behave_truthful (hup : Upheld p N s.scope) {i : Invocation} (script : Script)
    (hi : ¬(N i.node ∧ p.dataOnly i.node = true)) (hf : ∀ f ∈ s.frames, f.Foreign p N) :
    e.Stays (Truthful p N blame) (e.behave s i script) := by
  have hsame : e.Welcomes e := .of_eq rfl
  cases script with
  | finish v =>
    refine goes_truthful (.of_eq ?_) hf hi (hup.of_eq rfl rfl rfl rfl)
    dsimp only
    split <;> rfl
  | fail err => exact failInvocation_truthful hsame hup i err hf
  | again state =>
    simp only [Engine.behave]
    split
    · exact goes_truthful hsame hf hi hup
    · exact failInvocation_truthful hsame hup i _ hf
  | ask q k =>
    refine goes_truthful (e.welcomes_perform i s.scope q) hf ?_ (hup.perform e hi q)
    show ¬(N (e.perform i s.scope q).invocation.node ∧ p.dataOnly (e.perform i s.scope q).invocation.node = true)
    rwa [perform_node]
  | edit c k => exact goes_truthful (Engine.Tended.command e c).strands hf hi hup
  | wait w k => exact awaitFor_truthful hup hi hf

theorem foreign_outputResult (sc : Scope) (node port : String) (ds : Dependencies) :
    (Engine.outputResult sc node port ds).Foreign p N := by
  unfold Engine.outputResult
  split <;> trivial

theorem foreign_endOf (r : Except Raised Value) : (endOf r).Foreign p N := by
  cases r <;> trivial

/-- Whoever pulls an input waits for the value of an output, or has a value at once. -/
theorem pullInput_truthful (hup : Upheld p N s.scope) (node port : String) (hf : ∀ f ∈ s.frames, f.Foreign p N)
    (hs : ∃ nodes as, Stacked .value s.frames nodes as) : e.Stays (Truthful p N blame) (e.pullInput s node port) := by
  have hsame : e.Welcomes e := .of_eq rfl
  rcases e.pullInput_wired_or_fixed s node port with ⟨x, -, heq⟩ | ⟨r, -, heq⟩
  · rw [heq]
    by_cases hN : N x.source
    · exact .go hsame (.inr ⟨hup, .inr (.output hN (.base ⟨hf, hs⟩))⟩)
    · exact goes_truthful hsame hf hN hup
  · rw [heq]
    exact goes_truthful hsame hf (foreign_endOf r) hup

/-- An output of another region is resolved. -/
theorem pullOutput_truthful (hup : Upheld p N s.scope) {node : String} (hN : ¬N node) (port : String)
    (hf : ∀ f ∈ s.frames, f.Foreign p N) : e.Stays (Truthful p N blame) (e.pullOutput s node port) := by
  have hsame : e.Welcomes e := .of_eq rfl
  have hcases := e.pullOutput_cases s node port
  generalize e.pullOutput s node port = t at hcases ⊢
  cases hcases with
  | current => exact goes_truthful hsame hf (foreign_outputResult _ _ _ _) hup
  | @runs n k hn =>
    obtain rfl : n.id = node := Engine.id_of_nodeWithKind hn
    have hup' : Upheld p N ((s.scope.resetNode n.id).enter n.id port) := by
      have hne : ∀ m, N m → m ≠ n.id := fun m hm heq => hN (heq ▸ hm)
      refine hup.elsewhere (fun m hm => ?_) rfl (fun m hm => ?_) fun m hm hmem => ?_
      · exact (Scope.outputsOf_resetNode s.scope n.id m).trans (if_neg (hne m hm))
      · exact Scope.cached?_resetNode s.scope (hne m hm)
      · have hmem' : m ∈ (s.scope.path ++ [(n.id, port)]).map Prod.fst := hmem
        simpa [hne m hm] using hmem'
    have hframes : ∀ f ∈ Frame.output n.id port n.serial :: s.frames, f.Foreign p N :=
      List.forall_mem_cons.mpr ⟨hN, hf⟩
    have hi : ¬(N n.id ∧ p.dataOnly n.id = true) := fun h => hN h.1
    have hcases := e.runForOutput_cases s n k port
    generalize e.runForOutput s n k port = t at hcases ⊢
    cases hcases with
    | hops => exact parks_truthful (.of_eq rfl) (List.forall_mem_cons.mpr ⟨trivial, hframes⟩) hi hup'
    | nests => exact goes_truthful (.of_eq rfl) hframes hi hup'
  | _ => exact goes_truthful hsame hf trivial hup

theorem continueFrom_truthful (hup : Upheld p N s.scope) {i : Invocation} {v : Value}
    (hpublish : ∀ es, v = .dict es → Upheld p N (es.foldl (fun sc x => sc.publish i.node x.1 x.2) s.scope))
    (rest : List String) (hf : ∀ f ∈ s.frames, f.Foreign p N) :
    e.Stays (Truthful p N blame) (e.continueFrom s i v rest) := by
  have hsame : e.Welcomes e := .of_eq rfl
  unfold Engine.continueFrom
  dsimp only
  split
  · split
    · exact goes_truthful hsame hf trivial hup
    · exact goes_truthful (.of_eq rfl) hf trivial hup
  · next es => exact goes_truthful hsame hf trivial (hpublish es rfl)
  · exact goes_truthful hsame hf trivial hup

theorem resume_truthful (hup : Upheld p N s.scope) {i : Invocation} (w : Wait) (k : Except Raised w.Reply → Script)
    (hi : ¬(N i.node ∧ p.dataOnly i.node = true)) (r : Result) (hf : ∀ f ∈ s.frames, f.Foreign p N) :
    e.Stays (Truthful p N blame) (e.resumeBehavior s i w k r) := by
  have hsame : e.Welcomes e := .of_eq rfl
  unfold Engine.resumeBehavior
  split <;> exact goes_truthful hsame hf hi hup

theorem back_truthful {id : Nat} {scope : Scope} {f : Frame} {fs : List Frame} {r : Result} {b : Book}
    (hsits : Sits b (⟨id, scope, f :: fs⟩, .turn (.back r))) (hup : Upheld p N scope)
    (hall : ∀ g ∈ f :: fs, g.Foreign p N) (hback : (Signal.back r).Foreign p N) (hinside : ¬∀ g ∈ f :: fs, g.Outer) :
    e.Stays (Truthful p N blame) (e.back ⟨id, scope, fs⟩ f r) := by
  have hsame : e.Welcomes e := .of_eq rfl
  obtain ⟨hhead, hf⟩ := List.forall_mem_cons.mp hall
  cases f with
  | behavior i w k => exact resume_truthful hup w k hhead r hf
  | walk rest =>
    cases r with
    | invoked v i => exact continueFrom_truthful hup (fun es _ => hup.publishAll hback es) rest hf
    | _ => exact goes_truthful hsame hf trivial hup
  | output m port serial =>
    cases r with
    | invoked v i =>
      have hne : ∀ m', N m' → m' ≠ m := fun m' hm' heq => hhead (heq ▸ hm')
      refine goes_truthful (.of_eq rfl) hf (foreign_outputResult _ _ _ _) ((hup.leave m).elsewhere (fun m' hm' => ?_) rfl
        (fun m' hm' => ?_) fun m' _ hmem => hmem)
      · exact (Scope.outputsOf_withOutputs (scope.leave m) m m' _).trans (if_neg (hne m' hm'))
      · exact (Scope.cached?_cache _ m m' _).trans (if_neg (hne m' hm'))
    | _ => exact goes_truthful hsame hf trivial hup
  | hop => exact parks_truthful (.of_eq rfl) hf hback hup
  | trigger n origin => exact .go (.of_eq rfl) (.inl (hsits.outer_below_trigger rfl))
  | value => exact goes_truthful hsame hf trivial hup
  | _ => exact absurd (hsits.outer_of_outer rfl trivial) hinside

theorem raise_truthful {id : Nat} {scope : Scope} {f : Frame} {fs : List Frame} {err : Raised} {b : Book}
    (hsits : Sits b (⟨id, scope, f :: fs⟩, .turn (.raise err))) (hup : Upheld p N scope)
    (hall : ∀ g ∈ f :: fs, g.Foreign p N) (hinside : ¬∀ g ∈ f :: fs, g.Outer) :
    e.Stays (Truthful p N blame) (e.raise ⟨id, scope, fs⟩ f err) := by
  have hsame : e.Welcomes e := .of_eq rfl
  obtain ⟨hhead, hf⟩ := List.forall_mem_cons.mp hall
  cases f with
  | behavior i w k => exact goes_truthful hsame hf hhead hup
  | trigger n origin =>
    have hout := hsits.outer_below_trigger rfl
    cases err with
    | failure f => exact .go (.of_eq rfl) (.inl hout)
    | fault f => exact .go hsame (.inl hout)
    | mute f => exact .go hsame (.inl hout)
  | hop => exact parks_truthful (.of_eq rfl) hf trivial hup
  | output => exact goes_truthful hsame hf trivial (hup.leave _)
  | walk | value => exact goes_truthful hsame hf trivial hup
  | _ => exact absurd (hsits.outer_of_outer rfl trivial) hinside

/-- A turn that is of no data-only node of the region. -/
theorem foreign_turn {sig : Signal} {b : Book} (hsuits : e.Suits p N) (hsits : Sits b (s, .turn sig))
    (hup : Upheld p N s.scope) (hf : ∀ f ∈ s.frames, f.Foreign p N) (hsig : sig.Foreign p N)
    (hinside : ¬∀ f ∈ s.frames, f.Outer) : e.Stays (Truthful p N blame) (e.turn s sig) := by
  obtain ⟨id, scope, frames⟩ := s
  cases sig with
  | call c =>
    cases c with
    | walk agenda => exact walk_truthful hsuits hup agenda hf
    | invoke i => exact invoke_truthful hup hsig hf
    | behave i script => exact behave_truthful hup script hsig hf
    | input m port =>
      obtain ⟨nodes, -, hfits⟩ := hsits.fits
      cases hfits with
      | input hs => exact pullInput_truthful hup m port hf ⟨nodes, _, hs⟩
      | begins hc _ => exact hc.elim
    | output m port => exact pullOutput_truthful hup hsig port hf
    | _ => exact absurd (hsits.outer_of_call trivial) hinside
  | back r =>
    cases frames with
    | nil => exact (hinside (by simp)).elim
    | cons f fs => exact back_truthful hsits hup hf hsig hinside
  | raise err =>
    cases frames with
    | nil => exact (hinside (by simp)).elim
    | cons f fs => exact raise_truthful hsits hup hf hinside

/-- A node whose output is in progress has a frame. -/
theorem Stacked.output_of_mem {l : Level} {fs : List Frame} {nodes : List String} {as : List Account}
    (h : Stacked l fs nodes as) {node : String} (hm : node ∈ nodes) :
    ∃ port serial, Frame.output node port serial ∈ fs := by
  have hlater {f : Frame} {fs : List Frame} (h : ∃ port serial, Frame.output node port serial ∈ fs) :
      ∃ port serial, Frame.output node port serial ∈ f :: fs := by
    obtain ⟨port, serial, hmem⟩ := h
    exact ⟨port, serial, List.mem_cons_of_mem f hmem⟩
  induction h with
  | outer | trigger | value => exact absurd hm List.not_mem_nil
  | pull _ _ ih | advance _ _ ih | checkpoint _ _ ih | sleep _ _ ih | walk _ ih => exact hlater (ih hm)
  | @output m port serial _ _ _ _ ih =>
    rcases List.mem_cons.mp hm with rfl | hm
    · exact ⟨port, serial, List.mem_cons_self⟩
    · exact hlater (ih hm)
  | @hop m port serial _ _ _ _ ih =>
    rcases List.mem_cons.mp hm with rfl | hm
    · exact ⟨port, serial, List.mem_cons_of_mem _ List.mem_cons_self⟩
    · exact hlater (hlater (ih hm))

theorem Sits.output_of_mem_path {b : Book} {x : Strand × Parked} (h : Sits b x) {node : String}
    (hm : node ∈ x.1.scope.path.map Prod.fst) : ∃ port serial, Frame.output node port serial ∈ x.1.frames := by
  obtain ⟨l, nodes, as, hpath, hs⟩ := h.stacked
  rw [hpath, List.mem_reverse] at hm
  exact hs.output_of_mem hm

theorem Underlies.foreign {g : Goal} {fs : List Frame} (h : Underlies p N g fs) : ∀ f ∈ fs, f.Foreign p N := by
  cases g with
  | output node port => exact h.1
  | run node =>
    obtain ⟨agenda, rest, rfl, hf⟩ := h
    exact List.forall_mem_cons.mpr ⟨trivial, hf⟩
  | input | pause => exact h.elim

/-- What a resolution was begun on waits for a value, or is control flow. -/
theorem Underlies.head {g : Goal} {f : Frame} {fs : List Frame} (h : Underlies p N g (f :: fs)) :
    (∃ i port k, f = .behavior i (.pull port) k) ∨ f = .value ∨ ∃ agenda, f = .walk agenda := by
  cases g with
  | output node port =>
    obtain ⟨-, nodes, as, hs⟩ := h
    cases hs with
    | value => exact .inr (.inl rfl)
    | pull => exact .inl ⟨_, _, _, rfl⟩
  | run node =>
    obtain ⟨agenda, rest, heq, -⟩ := h
    exact .inr (.inr ⟨agenda, (List.cons.inj heq).1⟩)
  | input | pause => exact h.elim

/-- A resolution has its end: its strand has something to do for others, or control flow goes on after a data-only
node. -/
theorem Poised.of_ended {sc : Scope} {fs : List Frame} {sig : Signal} (hended : sig.Ended) {g : Goal}
    (hbase : Underlies p N g fs) (h : Poised p N blame (Underlies p N) sc fs (.turn sig)) :
    sig.Foreign p N ∨ ∃ v i agenda rest, sig = .back (.invoked v i) ∧ fs = .walk agenda :: rest ∧ Sourced p N i ∧
      Vouched p N sc i.dependencies fun shown => p.Ran (p.Yields shown) i.node i.kind v := by
  generalize hq : Parked.turn sig = q at h
  cases h with
  | input | output | invokes | behaves =>
    cases hq
    exact hended.elim
  | @invoked i v hi hv h =>
    cases hq
    generalize hgoal : Goal.run i.node = g' at h
    cases h with
    | base hrun =>
      subst hgoal
      obtain ⟨agenda, rest, rfl, -⟩ := hrun
      exact .inr ⟨v, i, agenda, rest, rfl, rfl, hi, hv⟩
    | wire => cases hgoal
    | @behavior _ w => cases w <;> cases hgoal
    | output | hop => rcases hbase.head with ⟨_, _, _, heq⟩ | heq | ⟨_, heq⟩ <;> cases heq
  | pulled | raised =>
    cases hq
    exact .inl trivial
  | pauses hpause h =>
    generalize hgoal : Goal.pause = g' at h
    cases h with
    | base hfalse =>
      subst hgoal
      exact hfalse.elim
    | @behavior i w k rest =>
      rcases hbase.head with ⟨_, _, _, heq⟩ | heq | ⟨_, heq⟩
      · cases heq
        cases hgoal
      · cases heq
      · cases heq
    | wire | output | hop => cases hgoal

/-- Every turn inside the trigger. -/
theorem Truthful.turn {sig : Signal} {b : Book} (hr : p.Strict N) (hsuits : e.Suits p N)
    (hsits : Sits b (s, .turn sig)) (hdeny : e.Denies s sig → blame) (h : Truthful p N blame (s, .turn sig))
    (hinside : ¬∀ f ∈ s.frames, f.Outer) : e.Stays (Truthful p N blame) (e.turn s sig) := by
  have hup : Upheld p N s.scope := h.upheld
  rcases h.stands with ⟨hf, hsig⟩ | hpoised
  · exact foreign_turn hsuits hsits hup hf hsig hinside
  · by_cases hends : sig.Ended ∧ ∃ g, Underlies p N g s.frames
    · obtain ⟨hended, g, hbase⟩ := hends
      have hf := hbase.foreign
      rcases hpoised.of_ended hended hbase with hsig | ⟨v, i, agenda, rest, rfl, hframes, hi, hv⟩
      · exact foreign_turn hsuits hsits hup hf hsig hinside
      · -- a data-only node has been run by control flow
        obtain ⟨n, hn⟩ := hi.kind
        have hidle : i.node ∉ s.scope.path.map Prod.fst := by
          intro hmem
          obtain ⟨port, serial, hm⟩ := hsits.output_of_mem_path hmem
          exact hf _ hm hi.mem
        obtain ⟨id, scope, frames⟩ := s
        obtain rfl : frames = .walk agenda :: rest := hframes
        refine continueFrom_truthful (s := ⟨id, scope, rest⟩) hup (fun es hes => ?_) agenda
          (List.forall_mem_cons.mp hf).2
        subst hes
        exact hup.publishRun hr.toRegion hi.mem hn hi.dataOnly hv.now hidle
    · have hdone : sig.Ended → ∀ g, ¬Underlies p N g s.frames := fun hended g hbase => hends ⟨hended, g, hbase⟩
      exact (hpoised.turn hr hsuits hsits hup hdeny hdone).mono fun x hx => .inr ⟨hx.upheld, .inr hx.poised⟩

end Turns

/-! ## Triggers -/

theorem Poised.unpark {B : Goal → List Frame → Prop} {sc : Scope} {fs : List Frame} {q : Parked}
    (h : Poised p N blame B sc fs q) (e : Engine) : Poised p N blame B sc fs (.turn (e.unpark q).1) := by
  cases h with
  | pauses hq h => exact .pauses (hq.unpark e) h
  | input hN hd h => exact .input hN hd h
  | output hN h => exact .output hN h
  | invokes hi hnone h => exact .invokes hi hnone h
  | behaves hi h => exact .behaves hi h
  | invoked hi hv h => exact .invoked hi hv h
  | pulled hg hv h => exact .pulled hg hv h
  | raised hg hnone h => exact .raised hg hnone h

theorem Truthful.unpark {q : Parked} (h : Truthful p N blame (s, q)) (e : Engine) :
    Truthful p N blame (s, .turn (e.unpark q).1) := by
  refine ⟨h.upheld, h.stands.imp (fun hforeign => ⟨hforeign.1, ?_⟩) fun hpoised => hpoised.unpark e⟩
  cases q with
  | turn sig => exact hforeign.2
  | sleep id => trivial
  | task id | gather id =>
    simp only [Engine.unpark]
    split <;> trivial

/-- A scope in which nothing has been remembered yet. -/
theorem Upheld.seeded (p : Program) (N : String → Prop) (e : Engine) (node : String) (seeds : Dict) :
    Upheld p N (e.seeded node seeds) := by
  have hext := Scope.Extends.publishAll node seeds { trigger := e.nextTrigger }
  refine ⟨fun m ds _ _ hc => ?_, fun m _ _ hm => ?_⟩
  · rw [Scope.cached?, Engine.seeded, hext.cached] at hc
    simp at hc
  · rw [Engine.seeded, hext.path] at hm
    simp at hm

/-- Whether the turn under way refuses to resolve an output in a trigger. -/
def Engine.Turn.Denies (t : Engine.Turn) (T : Nat) : Prop :=
  ∃ s sig, t.next = some (s, sig) ∧ s.scope.trigger = T ∧ t.engine.Denies s sig

section Runs

variable {run : Nat → Engine.Turn} {n a b T : Nat} {node : String} {origin : Origin} {port : Option String}
  {seeds : Dict}

/-- The strand of a trigger, from its beginning on. -/
theorem truthful_run (hopens : Opens (run 0)) (hplays : ∀ k < n, Play (run k) (run (k + 1))) (hr : p.Strict N)
    (hab : a < b) (hb : b ≤ n) (hstart : (run a).next = some (s, .call (.trigger node origin port seeds)))
    (hT : (run a).engine.nextTrigger = T) (hsuits : ∀ k, a < k → k < b → (run k).engine.Suits p N) :
    During T (Truthful p N (∃ k, a < k ∧ k < b ∧ (run k).Denies T)) (run b) := by
  refine during_since (P := fun k => Truthful p N (∃ k, a < k ∧ k < b ∧ (run k).Denies T)) hopens hplays hab hb hstart
    hT ?_ ?_ (fun _ _ _ _ hx => hx) fun _ _ _ s q e hx => hx.unpark e
  · intro x hborn
    obtain ⟨L, hL⟩ := orderly_run hopens hplays (hab.le.trans hb)
    have hout := hborn.outer (hL.placed _ (Engine.Turn.mem_population_of_next hstart)).sits
    cases hborn with
    | trigger _ =>
      exact ⟨.seeded p N _ _ _, .inl ⟨List.forall_mem_cons.mpr ⟨trivial, fun f hf => (hout f hf).foreign⟩, trivial⟩⟩
  · intro k hak hkb s' sig hn hsT hinside hp
    obtain ⟨L, hL⟩ := orderly_run hopens hplays (hkb.le.trans hb)
    have hsits := (hL.placed _ (Engine.Turn.mem_population_of_next hn)).sits
    exact hp.turn hr (hsuits k hak hkb) hsits (fun hdeny => ⟨k, hak, hkb, s', sig, hn, hsT, hdeny⟩) hinside

end Runs

/-! ## Pulls -/

/-- Whether an output is resolved from step `j` on, by a strand that first has an end of it at step `k`. -/
structure Resolves (run : Nat → Engine.Turn) (j k : Nat) (s s' : Strand) (node port : String) (sig : Signal) :
    Prop where
  lt : j < k
  begins : (run j).next = some (s, .call (.output node port))
  ends : (run k).next = some (s', sig)
  trigger : s'.scope.trigger = s.scope.trigger
  frames : s'.frames = s.frames
  ended : sig.Ended
  first : ∀ l, j < l → l < k → ∀ s'' sig'', (run l).next = some (s'', sig'') →
    s''.scope.trigger = s.scope.trigger → s''.frames = s.frames → ¬sig''.Ended

/-! ## Frames below a strand -/

/-- What is in progress stays so until it is told something. -/
theorem Signal.suffix_below {sig : Signal} {base fs : List Frame} (h : base <:+ fs) (hne : sig.Ended → fs ≠ base) :
    base <:+ sig.below fs := by
  cases sig with
  | call c => exact h
  | back | raise =>
    cases fs with
    | nil => exact h
    | cons f rest => exact (List.suffix_cons_iff.mp h).resolve_left fun heq => hne trivial heq.symm

theorem Engine.finds_below (e : Engine) (s : Strand) (sig : Signal) :
    e.Finds (fun x => (∀ f ∈ x.1.frames, f.Outer) ∨ sig.below s.frames <:+ x.1.frames) (e.turn s sig) := by
  obtain ⟨own, news, hpop, -, hnews, hown, -⟩ := (turn_passes e s sig).population
  intro x hx
  rw [hpop, List.mem_append, List.mem_append] at hx
  rcases hx with hx | hx | hx
  · refine .inr (.inr ?_)
    rcases hown x (Option.mem_toList.mp hx) with hheir | ⟨-, -, hf, -⟩
    · obtain ⟨pushed, hf, -⟩ := hheir.frames
      exact .inr ⟨pushed, hf.symm⟩
    · refine .inl fun f hmem => ?_
      rw [hf, List.mem_singleton] at hmem
      rw [hmem]
      trivial
  · exact .inr (.inl (hnews x hx).1)
  · exact .inl hx

section Pulls

variable {run : Nat → Engine.Turn} {n a j k T : Nat} {s₀ : Strand} {first : String} {origin : Origin}
  {exit : Option String} {seeds : Dict} {node port : String} {sig : Signal}

/-- Until a resolution has its end, its strand is in the midst of it, above the frames that it was begun on. -/
theorem resolving_run (hopens : Opens (run 0)) (hplays : ∀ k < n, Play (run k) (run (k + 1))) (hr : p.Strict N)
    (hstart : (run a).next = some (s₀, .call (.trigger first origin exit seeds)))
    (hT : (run a).engine.nextTrigger = T) (haj : a < j) (hk : k ≤ n)
    (hsuits : ∀ l, a < l → l < k → (run l).engine.Suits p N) (hres : Resolves run j k s s' node port sig)
    (hsT : s.scope.trigger = T) (hN : N node) (hup : Upheld p N s.scope)
    (hdeny : ∀ l, j ≤ l → l < k → (run l).Denies T → blame) {l : Nat} (hjl : j < l) (hlk : l ≤ k) :
    During T (Resolving p N blame (fun g fs => g = .output node port ∧ fs = s.frames) s.scope) (run l) := by
  have hrefused {l : Nat} (hjl : j ≤ l) (hlk : l < k) {s : Strand} {sig : Signal} (hn : (run l).next = some (s, sig))
      (hs : s.scope.trigger = T) (hd : (run l).engine.Denies s sig) : blame := hdeny l hjl hlk ⟨s, sig, hn, hs, hd⟩
  obtain ⟨L, hL⟩ := orderly_run hopens hplays (hres.lt.le.trans hk)
  have hsits := (hL.placed _ (Engine.Turn.mem_population_of_next hres.begins)).sits
  have hT₀ : T ≠ 0 := by
    obtain ⟨L₀, hL₀⟩ := orderly_run hopens hplays (haj.le.trans (hres.lt.le.trans hk))
    exact hT ▸ hL₀.positive.ne'
  induction l, hjl using Nat.le_induction with
  | base =>
    rw [(hplays j (hres.lt.trans_le hk)).eq_turn hres.begins]
    refine .own hL hT₀ hres.begins hsT (Engine.Finds.mono ?_ fun x hx => .inr hx)
    exact Poised.turn hr (hsuits j haj hres.lt) hsits hup (hrefused le_rfl hres.lt hres.begins hsT)
      (fun h => h.elim) (.output hN (.base ⟨rfl, rfl⟩))
  | succ l hjl ih =>
    have hl : l < k := hlk
    obtain ⟨L', hL'⟩ := orderly_run hopens hplays (hl.le.trans hk)
    have hknown := nextTrigger_lt_run hopens hplays (haj.trans hjl) (hl.le.trans hk) hstart
    rw [hT] at hknown
    refine (ih hl.le).step hL' hT₀ hknown (hplays l (hl.trans_le hk)).step (fun s q e hx => ?_) ?_
    · exact ⟨hx.poised.unpark e, hx.upheld, hx.still⟩
    · intro s'' sig'' hn hsT' hx
      have hdone : sig''.Ended → ∀ g, ¬(g = Goal.output node port ∧ s''.frames = s.frames) :=
        fun hended g hg => hres.first l hjl hl s'' sig'' hn (hsT'.trans hsT.symm) hg.2 hended
      have hsits' := (hL'.placed _ (Engine.Turn.mem_population_of_next hn)).sits
      refine (Poised.turn hr (hsuits l (haj.trans hjl) hl) hsits' hx.upheld
        (hrefused (Nat.le_of_lt hjl) hl hn hsT') hdone hx.poised).mono fun x hx' => .inr ?_
      exact ⟨hx'.poised, hx'.upheld, hx.still.trans hx'.still⟩

/-- What has its end on the frames that the resolution of an output was begun on is that resolution. -/
theorem Poised.concludes {sc : Scope} {frames : List Frame} (hended : sig.Ended)
    (h : Poised p N blame (fun g fs => g = .output node port ∧ fs = frames) sc frames (.turn sig)) :
    (∃ v ds, sig = .back (.pulled v ds) ∧ p.Yields sc.shown node port v) ∨
      ∃ err, sig = .raise err ∧ (blame ∨ ∀ v, ¬p.Yields sc.shown node port v) := by
  have hserves : ∀ {g : Goal}, Serves p N blame (fun g fs => g = .output node port ∧ fs = frames) sc g frames →
      g = .output node port := by
    intro g hs
    rcases hs.length (fun _ _ h => by cases h) with ⟨hg, -⟩ | hlt
    · exact hg
    · exact absurd hlt (lt_irrefl _)
  generalize hq : Parked.turn sig = q at h
  cases h with
  | input | output | invokes | behaves =>
    cases hq
    exact hended.elim
  | invoked _ _ h => cases hserves h
  | pauses _ h => cases hserves h
  | @pulled g v ds _ hv h =>
    cases hq
    obtain rfl := hserves h
    exact .inl ⟨v, ds, rfl, hv.now⟩
  | @raised g err _ hnone h =>
    cases hq
    obtain rfl := hserves h
    exact .inr ⟨err, rfl, hnone⟩

/-- What a pull has is what evaluation yields of what is shown then; and where evaluation yields nothing, or a pull
meanwhile was refused, it may have an error. -/
theorem pulls_present (hopens : Opens (run 0)) (hplays : ∀ k < n, Play (run k) (run (k + 1))) (hr : p.Strict N)
    (hstart : (run a).next = some (s₀, .call (.trigger first origin exit seeds)))
    (hT : (run a).engine.nextTrigger = T) (haj : a < j) (hk : k ≤ n)
    (hsuits : ∀ l, a < l → l < k → (run l).engine.Suits p N) (hres : Resolves run j k s s' node port sig)
    (hsT : s.scope.trigger = T) (hN : N node) : Undisturbed p s.scope s'.scope ∧
      ((∃ v ds, sig = .back (.pulled v ds) ∧ p.Yields s'.scope.shown node port v) ∨
        ∃ err, sig = .raise err ∧ ((∃ l, j ≤ l ∧ l < k ∧ (run l).Denies T) ∨
          ∀ v, ¬p.Yields s'.scope.shown node port v)) := by
  have hjn := hres.lt.le.trans hk
  obtain ⟨L, hL⟩ := orderly_run hopens hplays hjn
  have hmem := Engine.Turn.mem_population_of_next hres.begins
  have hinside : ¬∀ f ∈ s.frames, f.Outer := fun hout => ((hL.placed _ hmem).sits.outer_of_frames hout).elim
  have hup : Upheld p N s.scope := by
    have htruthful := truthful_run hopens hplays hr haj hjn hstart hT fun l hal hlj =>
      hsuits l hal (hlj.trans hres.lt)
    exact ((htruthful _ hmem hsT).resolve_left hinside).upheld
  have hfollow : During T (Resolving p N (∃ l, j ≤ l ∧ l < k ∧ (run l).Denies T)
      (fun g fs => g = .output node port ∧ fs = s.frames) s.scope) (run k) :=
    resolving_run hopens hplays hr hstart hT haj hk hsuits hres hsT hN hup (fun l hjl hlk hd => ⟨l, hjl, hlk, hd⟩)
      hres.lt le_rfl
  have hend := (hfollow _ (Engine.Turn.mem_population_of_next hres.ends) (hres.trigger.trans hsT)).resolve_left
    fun hout => hinside (hres.frames ▸ hout)
  have hpoised := hend.poised
  rw [hres.frames] at hpoised
  exact ⟨hend.still, hpoised.concludes hres.ended⟩

/-- A resolution is known by the heights of the frames of its strand. -/
theorem Resolves.of_heights (hopens : Opens (run 0)) (hplays : ∀ l < k, Play (run l) (run (l + 1))) (hjk : j < k)
    (hbegins : (run j).next = some (s, .call (.output node port))) (hends : (run k).next = some (s', sig))
    (htrigger : s'.scope.trigger = s.scope.trigger) (hheight : s'.frames.length = s.frames.length)
    (hinside : ¬∀ f ∈ s'.frames, f.Outer) (hended : sig.Ended)
    (hfirst : ∀ l, j < l → l < k → ∀ s'' sig'', (run l).next = some (s'', sig'') →
      s''.scope.trigger = s.scope.trigger → s''.frames.length = s.frames.length → ¬sig''.Ended) :
    Resolves run j k s s' node port sig := by
  obtain ⟨L, hL⟩ := orderly_run hopens hplays hjk.le
  have hplaced := hL.placed _ (Engine.Turn.mem_population_of_next hbegins)
  have hT₀ : s.scope.trigger ≠ 0 := fun hzero => hplaced.sits.outer_of_frames (hplaced.sits.named hzero)
  -- the frames that the output is called on stay below the strand
  have hbelow : ∀ l, j < l → l ≤ k → During s.scope.trigger (fun x => s.frames <:+ x.1.frames) (run l) := by
    intro l hjl
    induction l, hjl using Nat.le_induction with
    | base =>
      intro _
      rw [(hplays j hjk).eq_turn hbegins]
      exact .own hL hT₀ hbegins rfl (Engine.finds_below _ s _)
    | succ l hjl ih =>
      intro hlk
      obtain ⟨L', hL'⟩ := orderly_run hopens hplays (Nat.le_of_succ_le hlk)
      have hmono := nextTrigger_le_run hopens hplays (Nat.le_of_lt hjl) (Nat.le_of_succ_le hlk)
      have hknown := hplaced.known.trans_le hmono
      refine (ih (Nat.le_of_succ_le hlk)).step hL' hT₀ hknown (hplays l hlk).step (fun _ _ _ h => h) ?_
      intro s'' sig'' hn hsT hsuffix
      have hne : sig''.Ended → s''.frames ≠ s.frames :=
        fun hended hf => hfirst l hjl hlk s'' sig'' hn hsT (congrArg List.length hf) hended
      exact (Engine.finds_below _ s'' sig'').mono fun x hx => hx.imp_right (Signal.suffix_below hsuffix hne).trans
  have hsuffix := (hbelow k hjk le_rfl _ (Engine.Turn.mem_population_of_next hends) htrigger).resolve_left hinside
  refine ⟨hjk, hbegins, hends, htrigger, (hsuffix.eq_of_length hheight.symm).symm, hended, ?_⟩
  exact fun l hjl hlk s'' sig'' hn hsT hf => hfirst l hjl hlk s'' sig'' hn hsT (congrArg List.length hf)

end Pulls

end Patchbay
