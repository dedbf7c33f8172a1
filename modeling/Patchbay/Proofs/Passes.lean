import Patchbay.Proofs.Counting
import Patchbay.Proofs.Programs

/-!
# Passes of a loop

A loop counts while control flow goes depth-first through what its output leads to, which may publish, write, wait and
run other loops beside it. In every pass what is pulled from the loop is the index of the pass, and what is pulled from
the nodes behind it is what they yield of that index. Only a node that goes on without a pull that failed may show what
it had in an earlier pass: what such a pull has read is noted nowhere.

Contents:
* `Loops`, `Sole`: a counting loop in a run, and that control flow does not come to it again.
* `Steady`: nodes that stay as they are in a program while a trigger goes on.
* `Presents`: how a resolution ends that has what evaluation yields.

Results:
* `Loops.counting`: the strand of a loop, all along.
* `loop_passes_present`: the outputs that a loop follows, and what is pulled in its passes.
* `loop_passes_stale`: a loop in whose second pass a node shows what it had in the first.
-/

namespace Patchbay

/-- Whether a counting loop is invoked at step `a` that counts from `first` to below `bound`, and goes on by every turn
after that, until before step `n`. -/
structure Loops (run : Nat → Engine.Turn) (a n : Nat) (s : Strand) (i : Invocation) (first bound : Int) : Prop where
  kind : Library.countingLoop.build = .ok i.kind
  begins : (run a).next = some (s, .call (.invoke i))
  bears : ∀ k, a < k → k < n → (run k).Bears s first bound

/-- Whether the node of a loop stays of its kind, and control flow does not come to it again before the loop is done
with its passes. -/
structure Sole (run : Nat → Engine.Turn) (a n : Nat) (s : Strand) (i : Invocation) : Prop where
  kept : ∀ k, a < k → k < n → ∃ m, (run k).engine.nodeWithKind i.node = .ok (m, i.kind)
  once : ∀ k, a < k → k ≤ n → "done" ∉ followed run s a k → ∀ s' j, (run k).next = some (s', .call (.invoke j)) →
    s'.scope.trigger = s.scope.trigger → j.node ≠ i.node

/-- Whether a trigger begins at step `o`, and nodes that are fed by exacting functions stay as they are in a program
from then on, until before step `n`. -/
structure Steady (run : Nat → Engine.Turn) (p : Program) (N : String → Prop) (o n T : Nat) : Prop where
  lt : o < n
  strict : p.Strict N
  begins : ∃ s node origin port seeds, (run o).next = some (s, .call (.trigger node origin port seeds))
  trigger : (run o).engine.nextTrigger = T
  suits : ∀ k, o < k → k < n → (run k).engine.Suits p N

/-- How a resolution ends that has the one value that evaluation yields, or an error where evaluation yields none or a
pull was refused. -/
inductive Presents (p : Program) (shown : String → String → Option Value) (node port : String) (refused : Prop) :
    Signal → Prop
  | value {v : Value} {ds : Dependencies} (h : p.Yields shown node port v)
      (hone : ∀ u, p.Yields shown node port u → u = v) : Presents p shown node port refused (.back (.pulled v ds))
  | error {err : Raised} (h : refused ∨ ∀ v, ¬p.Yields shown node port v) :
      Presents p shown node port refused (.raise err)

section Runs

variable {run : Nat → Engine.Turn} {a n k : Nat} {s s' : Strand} {i : Invocation} {first bound : Int}

theorem Loops.mono (h : Loops run a n s i first bound) (hk : k ≤ n) : Loops run a k s i first bound :=
  ⟨h.kind, h.begins, fun l hal hlk => h.bears l hal (hlk.trans_le hk)⟩

theorem Sole.mono (h : Sole run a n s i) (hk : k ≤ n) : Sole run a k s i :=
  ⟨fun l hal hlk => h.kept l hal (hlk.trans_le hk), fun l hal hlk => h.once l hal (hlk.trans hk)⟩

/-- The loop begins. -/
theorem Loops.counting_first (h : Loops run a n s i first bound) (hb : Beat (run a) (run (a + 1))) {calm : Prop} :
    ∃ x ∈ (run (a + 1)).population, Counting s i first bound calm (followed run s a (a + 1)) x := by
  obtain ⟨b, hb', hstart, -⟩ := Library.countingLoop_behavior
  have hbehavior : i.kind.behavior = some b := by rw [(Kind.Counts.of_build h.kind).behavior, hb']
  have hturn := hb.play.eq_turn h.begins
  have heq : (run (a + 1)) = ((run a).engine.emitStarted s.scope i).go s (.call (.behave i Library.starting)) := by
    rw [hturn, ← hstart]
    show (run a).engine.invoke s i = _
    simp only [Engine.invoke, hbehavior]
  have hports : followed run s a (a + 1) = [] := by
    rw [followed_succ le_rfl, followed, Nat.sub_self]
    simp only [Engine.Turn.follows?, h.begins]
    rfl
  rw [heq, hports]
  exact ⟨_, List.mem_cons_self, .goes ⟨rfl, rfl⟩ rfl rfl rfl rfl .starting fun _ _ hv => by cases hv⟩

/-- While the strand of a loop waits for its turn, the loop follows no output. -/
theorem Staffed.follows?_of_waits {t : Engine.Turn} {x : Strand × Parked} (h : Staffed t) (hx : x ∈ t.engine.strands)
    (hid : x.1.id = s.id) : t.follows? s = none := by
  cases hn : t.next with
  | none => exact Engine.Turn.follows?_of_none hn
  | some y =>
    obtain ⟨s', sig⟩ := y
    refine Engine.Turn.follows?_of_ne hn fun hy => ?_
    have hids := h.ids
    rw [Engine.Turn.population_of_next hn, List.map_cons, List.nodup_cons] at hids
    exact absurd (List.mem_map.mpr ⟨x, hx, hid.trans hy.symm⟩) hids.1

/-- The strand of a loop after one more step. -/
theorem Loops.counting_step (hopens : Opens (run 0)) (hbeats : ∀ k ≤ n, Beat (run k) (run (k + 1)))
    (h : Loops run a (n + 1) s i first bound) (han : a < n) {x : Strand × Parked} (hx : x ∈ (run n).population)
    (hc : Counting s i first bound (Sole run a n s i) (followed run s a n) x) :
    ∃ x ∈ (run (n + 1)).population,
      Counting s i first bound (Sole run a (n + 1) s i) (followed run s a (n + 1)) x := by
  have hst : Staffed (run n) := staffed_run hopens (fun k hk => hbeats k hk.le) le_rfl
  have hk := Kind.Counts.of_build h.kind
  have hsucc : followed run s a (n + 1) = followed run s a n ++ ((run n).follows? s).toList := followed_succ han.le
  have hc := hc.mono fun hsole : Sole run a (n + 1) s i => hsole.mono (Nat.le_succ n)
  -- unless the loop itself has a turn, it follows no output
  have hidle (hnone : (run n).follows? s = none) : followed run s a (n + 1) = followed run s a n := by
    rw [hsucc, hnone, Option.toList_none, List.append_nil]
  obtain ⟨s', p⟩ := x
  rcases (hbeats n le_rfl).track hst hx with ⟨sig, hn, hp, hturn⟩ | ⟨hwaits, hx', -⟩ | ⟨e, hn, -, -, heq⟩
  · obtain rfl : p = .turn sig := hp
    obtain ⟨L, hL⟩ := orderly_run hopens (fun k hk => (hbeats k (Nat.le_of_lt_succ hk)).play) (Nat.le_succ n)
    rw [hturn, hsucc]
    refine hc.turn hk hst hL hn (h.bears n han (Nat.lt_succ_self n))
      (fun hsole => hsole.kept n han (Nat.lt_succ_self n)) fun hsole hdone s'' j' hnext htrigger => ?_
    rw [← hsucc] at hdone
    rw [← hturn] at hnext
    exact hsole.once (n + 1) (Nat.lt_succ_of_lt han) le_rfl hdone s'' j' hnext (htrigger.trans hc.same.trigger)
  · rw [hidle (hst.follows?_of_waits hwaits hc.same.id)]
    exact ⟨_, hx', hc⟩
  · rw [hidle (Engine.Turn.follows?_of_none hn), heq]
    exact ⟨_, List.mem_cons_self, hc.unpark e⟩

/-- The strand of a loop, all along. -/
theorem Loops.counting (hopens : Opens (run 0)) (hbeats : ∀ k < n, Beat (run k) (run (k + 1)))
    (h : Loops run a n s i first bound) (han : a < n) : ∃ x ∈ (run n).population,
      Counting s i first bound (Sole run a n s i) (followed run s a n) x := by
  induction n, han using Nat.le_induction with
  | base => exact h.counting_first (hbeats a (Nat.lt_succ_self a))
  | succ k hak ih =>
    obtain ⟨x, hx, hc⟩ := ih (fun j hj => hbeats j (Nat.lt_succ_of_lt hj)) (h.mono (Nat.le_succ k))
    exact h.counting_step hopens (fun j hj => hbeats j (Nat.lt_succ_of_le hj)) hak hx hc

/-! ## What a loop has followed -/

theorem Library.replicate_isPrefix_outputs {m : Nat} (h : m ≤ (bound - first).toNat) :
    List.replicate m "loop" <+: Library.outputs first bound := by
  rw [outputs, ← Nat.add_sub_cancel' h, List.replicate_add, List.append_assoc]
  exact List.prefix_append _ _

/-- What a loop has followed, and what it has with the output that it follows next. -/
theorem Halfway.isPrefix {ports : List String} {index : Option Int} {script : Script}
    (h : Halfway first bound ports index script) : ports <+: Library.outputs first bound ∧
      ports ++ script.followed?.toList <+: Library.outputs first bound := by
  cases h with
  | starting | bounding => exact ⟨List.nil_prefix, List.nil_prefix⟩
  | @checking m h | @publishing m h =>
    have hheld := Library.replicate_isPrefix_outputs (show m ≤ (bound - first).toNat by omega)
    exact ⟨hheld, (List.append_nil _).symm ▸ hheld⟩
  | @passing m h =>
    refine ⟨Library.replicate_isPrefix_outputs (by omega), ?_⟩
    show List.replicate m "loop" ++ List.replicate 1 "loop" <+: _
    rw [← List.replicate_add]
    exact Library.replicate_isPrefix_outputs (by omega)
  | @again m h =>
    have hheld := Library.replicate_isPrefix_outputs (show m + 1 ≤ (bound - first).toNat by omega)
    exact ⟨hheld, (List.append_nil _).symm ▸ hheld⟩
  | ending => exact ⟨Library.replicate_isPrefix_outputs le_rfl, List.prefix_rfl⟩
  | finishing => exact ⟨List.prefix_rfl, (List.append_nil (Library.outputs first bound)).symm ▸ List.prefix_rfl⟩

theorem Counting.isPrefix {calm : Prop} {ports : List String} {x : Strand × Parked}
    (h : Counting s i first bound calm ports x) : ports <+: Library.outputs first bound := by
  cases h with
  | goes _ _ _ _ _ hhalf => exact hhalf.isPrefix.1
  | waits _ _ _ _ hhalf hports =>
    rw [hports]
    exact hhalf.isPrefix.2
  | ended _ _ _ hports =>
    rw [hports]

/-- While a loop waits in a pass, it has published the index of the pass. -/
theorem Halfway.index_of_wait {before : List String} {index : Option Int} {w : Wait}
    {c : Except Raised w.Reply → Script} {m : Nat} (h : Halfway first bound before index (.wait w c))
    (hports : List.replicate (m + 1) "loop" = before ++ (Script.wait w c).followed?.toList) :
    index = some (first + m) := by
  have hlength := congrArg List.length hports
  generalize hscript : Script.wait w c = script at h hports hlength
  cases h with
  | starting | bounding => cases hports
  | @checking m' h =>
    have hm : m' = m + 1 := by simpa [Library.checking, Script.followed?] using hlength.symm
    rw [hm]
    rfl
  | @passing m' h =>
    have hm : m' = m := by simpa [Library.passing, Script.followed?] using hlength.symm
    rw [hm]
  | ending =>
    have hdone : "done" ∈ List.replicate (m + 1) "loop" := by
      rw [hports]
      exact List.mem_append_right _ List.mem_cons_self
    exact absurd (List.eq_of_mem_replicate hdone) (by decide)
  | publishing | again | finishing => cases hscript

/-- In a pass the scope shows its index to whatever the loop runs. -/
theorem Counting.shows {calm : Prop} {m : Nat} {sig : Signal}
    (h : Counting s i first bound calm (.replicate (m + 1) "loop") (s', .turn sig)) (hcalm : calm)
    (hsig : ∀ j script, sig ≠ .call (.behave j script)) : s'.scope.shown i.node "index" = some (.int (first + m)) := by
  have hdone : "done" ∉ List.replicate (m + 1) "loop" :=
    fun hmem => absurd (List.eq_of_mem_replicate hmem) (by decide)
  cases h with
  | goes _ _ hp => exact absurd (Parked.turn.inj hp) (hsig _ _)
  | waits _ _ _ _ hhalf hports hkeeps =>
    obtain ⟨sc, hshows, hkeep⟩ := hkeeps hcalm hdone
    have hshown := hshows _ (hhalf.index_of_wait hports)
    rwa [Scope.shown, ← hkeep.scope.outputs] at hshown
  | ended _ _ _ hports => exact absurd (hports ▸ List.mem_append_right _ List.mem_cons_self) hdone

/-! ## Runs of a loop -/

theorem Loops.trigger_ne_zero (hopens : Opens (run 0)) (hplays : ∀ k < n, Play (run k) (run (k + 1))) (han : a < n)
    (h : Loops run a n s i first bound) : s.scope.trigger ≠ 0 := by
  obtain ⟨L, hL⟩ := orderly_run hopens hplays han.le
  have hsits := (hL.placed _ (Engine.Turn.mem_population_of_next h.begins)).sits
  exact fun hzero => hsits.outer_of_frames (hsits.named hzero)

/-- The strand that has the turn in the trigger of a loop is that of the loop. -/
theorem Loops.counting_of_next (hopens : Opens (run 0)) (hbeats : ∀ k < n, Beat (run k) (run (k + 1)))
    (h : Loops run a n s i first bound) (han : a < n) {sig : Signal} (hn : (run n).next = some (s', sig))
    (hsT : s'.scope.trigger = s.scope.trigger) :
    Counting s i first bound (Sole run a n s i) (followed run s a n) (s', .turn sig) := by
  have hplays : ∀ k < n, Play (run k) (run (k + 1)) := fun k hk => (hbeats k hk).play
  have hT := h.trigger_ne_zero hopens hplays han
  obtain ⟨x, hx, hc⟩ := h.counting hopens hbeats han
  obtain ⟨L, hL⟩ := orderly_run hopens hplays le_rfl
  rw [Engine.Turn.population_of_next hn] at hx
  rcases List.mem_cons.mp hx with rfl | hx
  · exact hc
  · exact absurd (hc.same.trigger.trans hsT.symm) (hL.apart_of_next hn (hsT ▸ hT) hx)

/-- A loop that has an end is done with its passes. -/
theorem Loops.ended (hopens : Opens (run 0)) (hbeats : ∀ k < n, Beat (run k) (run (k + 1)))
    (h : Loops run a n s i first bound) (han : a < n) {sig : Signal} (hended : sig.Ended)
    (hres : (run n).Resumes s sig) :
    (∃ j, sig = .back (.invoked .null j)) ∧ followed run s a n = Library.outputs first bound := by
  obtain ⟨s', hn, hid, hf⟩ := hres
  obtain ⟨x, hx, hc⟩ := h.counting hopens hbeats han
  obtain rfl := (staffed_run hopens hbeats le_rfl).unique (Engine.Turn.mem_population_of_next hn) hx
    (hid.trans hc.same.id.symm)
  cases hc with
  | goes _ _ hp =>
    obtain rfl := Parked.turn.inj hp
    exact hended.elim
  | waits _ hbase =>
    have hle : s.frames.length + 1 ≤ s'.frames.length := hbase.length_le
    rw [hf] at hle
    exact absurd hle (Nat.not_succ_le_self _)
  | ended _ _ hp hports => exact ⟨⟨_, Parked.turn.inj hp⟩, hports⟩

/-- A loop that has not ended has something left to run. -/
theorem Loops.not_idle (hopens : Opens (run 0)) (hbeats : ∀ k < n, Beat (run k) (run (k + 1)))
    (h : Loops run a n s i first bound) (han : a < n) : ¬(run n).Idle := by
  intro hidle
  obtain ⟨⟨s', p⟩, hx, hc⟩ := h.counting hopens hbeats han
  obtain ⟨b, hsits⟩ := sits_run hopens hbeats le_rfl _ hx
  rw [population_of_none hidle.1] at hx
  obtain ⟨hturn, hsleep⟩ := (roused_run hopens hbeats le_rfl).of_idle hidle hx
  cases hc with
  | goes _ _ hp => exact hturn _ hp
  | ended _ _ hp => exact hturn _ hp
  | @waits j w c _ _ _ hbase =>
    -- only outside triggers it could wait for a task or a gather
    have hinside : ∀ {nodes as}, ¬Stacked .outer s'.frames nodes as := by
      intro nodes as hs
      cases hs with
      | outer hout => exact hout (.behavior j w c) (hbase.subset List.mem_cons_self)
    obtain ⟨nodes, -, hfits⟩ := hsits.fits
    generalize b.running = as at hfits
    cases hfits with
    | joins hs | gathers hs => exact hinside hs
    | sleeps => exact hsleep _ rfl
    | _ => exact hturn _ rfl

/-- What is pulled from the index of a loop in a pass. -/
theorem Loops.index_pulled (hopens : Opens (run 0)) (hbeats : ∀ k < n + 1, Beat (run k) (run (k + 1)))
    (h : Loops run a (n + 1) s i first bound) (hsole : Sole run a (n + 1) s i) (han : a < n) {m : Nat}
    (hpass : followed run s a n = .replicate (m + 1) "loop")
    (hn : (run n).next = some (s', .call (.output i.node "index"))) (hsT : s'.scope.trigger = s.scope.trigger) :
    ∃ ds, (run (n + 1)).next = some (s', .back (.pulled (.int (first + m)) ds)) := by
  have hc := (h.mono (Nat.le_succ n)).counting_of_next hopens (fun k hk => hbeats k (Nat.lt_succ_of_lt hk)) han hn hsT
  rw [hpass] at hc
  have hshown := hc.shows (hsole.mono (Nat.le_succ n)) (fun _ _ hsig => by cases hsig)
  have hk := Kind.Counts.of_build h.kind
  obtain ⟨node, hnode⟩ := hsole.kept n han (Nat.lt_succ_self n)
  have hport : (i.kind.outputPort "index").isNone = false := by
    rw [← Option.not_isSome, hk.index]
    rfl
  rw [(hbeats n (Nat.lt_succ_self n)).play.eq_turn hn]
  refine ⟨[(.output i.node (.str "index"), s'.scope.epoch i.node (.str "index"))], ?_⟩
  rw [Scope.shown] at hshown
  show ((run n).engine.pullOutput s' i.node "index").next = _
  simp only [Engine.pullOutput, hnode, hport, hk.dataOnly, hshown, Bool.false_eq_true, if_false, Bool.not_false,
    if_true]
  rfl

/-- What a strand pulls in a trigger that goes on in a steady program. -/
theorem Steady.presents (hopens : Opens (run 0)) (hplays : ∀ k < n, Play (run k) (run (k + 1))) {p : Program}
    {N : String → Prop} {o j T : Nat} (h : Steady run p N o n T) {s₁ s₂ : Strand} {node port : String} {sig : Signal}
    (hres : Resolves run j n s₁ s₂ node port sig) (hsT : s₁.scope.trigger = T) (hN : N node) :
    Presents p s₂.scope.shown node port (∃ l, j ≤ l ∧ l < n ∧ (run l).Denies T) sig := by
  obtain ⟨s₀, first, origin, exit, seeds, hstart⟩ := h.begins
  have hoj : o < j := by
    by_contra hle
    -- the trigger was not there yet
    obtain ⟨L, hL⟩ := orderly_run hopens hplays hres.lt.le
    have hknown := (hL.placed _ (Engine.Turn.mem_population_of_next hres.begins)).known
    have hmono := nextTrigger_le_run hopens hplays (Nat.not_lt.mp hle) h.lt.le
    rw [h.trigger, ← hsT] at hmono
    exact absurd hknown (Nat.not_lt.mpr hmono)
  obtain ⟨-, hvalue | herror⟩ := pulls_present hopens hplays h.strict hstart h.trigger hoj le_rfl h.suits hres hsT hN
  · obtain ⟨v, ds, rfl, hv⟩ := hvalue
    exact .value hv fun u hu => h.strict.unique hN hu hv
  · obtain ⟨err, rfl, hnone⟩ := herror
    exact .error hnone

/-- Counting loops. A loop that is not stopped, and in which nothing fails, follows its output for each whole number
from the first to below the bound and then the other one, as far as it has come, and before it is done with that it
neither ends nor is left with nothing to run. Unless control flow comes to its node again, every pull in a pass has the
index of the pass from the node, and from nodes that are fed by exacting functions it has the one value that evaluation
yields of the outputs that the scope shows then, the index of the pass among them. -/
theorem loop_passes_present (hopens : Opens (run 0)) (hbeats : ∀ k < n, Beat (run k) (run (k + 1))) (han : a < n)
    (h : Loops run a n s i first bound) :
    followed run s a n <+: Library.outputs first bound ∧ ¬(run n).Idle ∧
      (∀ sig, sig.Ended → (run n).Resumes s sig →
        (∃ j, sig = .back (.invoked .null j)) ∧ followed run s a n = Library.outputs first bound) ∧
      (Sole run a n s i → ∀ k m, a < k → k ≤ n → followed run s a k = .replicate (m + 1) "loop" →
        (k < n → ∀ s', (run k).next = some (s', .call (.output i.node "index")) →
          s'.scope.trigger = s.scope.trigger →
            ∃ ds, (run (k + 1)).next = some (s', .back (.pulled (.int (first + m)) ds))) ∧
        ∀ p N o j s₁ s₂ node port sig, Steady run p N o k s.scope.trigger → Resolves run j k s₁ s₂ node port sig →
          s₁.scope.trigger = s.scope.trigger → N node → s₂.scope.shown i.node "index" = some (.int (first + m)) ∧
            Presents p s₂.scope.shown node port (∃ l, j ≤ l ∧ l < k ∧ (run l).Denies s.scope.trigger) sig) := by
  obtain ⟨x, -, hc⟩ := h.counting hopens hbeats han
  refine ⟨hc.isPrefix, h.not_idle hopens hbeats han, fun sig hended hres => h.ended hopens hbeats han hended hres, ?_⟩
  intro hsole k m hak hkn hpass
  have hbeats' : ∀ l < k, Beat (run l) (run (l + 1)) := fun l hl => hbeats l (hl.trans_le hkn)
  refine ⟨fun hlt s' hn hsT => ?_, fun p N o j s₁ s₂ node port sig hsteady hres hsT hN => ⟨?_, ?_⟩⟩
  · exact (h.mono hlt).index_pulled hopens (fun l hl => hbeats l (hl.trans_le hlt)) (hsole.mono hlt) hak hpass hn hsT
  · have hc := (h.mono hkn).counting_of_next hopens hbeats' hak hres.ends (hres.trigger.trans hsT)
    rw [hpass] at hc
    refine hc.shows (hsole.mono hkn) fun _ _ heq => ?_
    have hended := hres.ended
    rw [heq] at hended
    exact hended
  · exact hsteady.presents hopens (fun l hl => (hbeats' l hl).play) hres hsT hN

end Runs

/-! ## Runs that are checked turn by turn -/

/-- Whether the turn under way neither invokes a node nor carries out a command. -/
def Engine.Turn.spares (t : Engine.Turn) (node : String) : Bool :=
  match t.next with
  | some (_, .call (.invoke i)) => i.node != node
  | some (_, .call (.behave _ (.edit _ _))) => false
  | some (_, .call (.request (.command _))) => false
  | _ => true

/-- Whether a loop that has been invoked on frames of some height goes on by the turn under way, and what it pulls are
its bounds. -/
def Engine.Turn.bears (t : Engine.Turn) (height : Nat) (first bound : Int) : Bool :=
  t.engine.running && match t.next with
    | some (s, .raise _) => decide (height + 1 < s.frames.length)
    | some (s, .back r) => decide (height < s.frames.length) && match s.frames, r with
      | .behavior _ (.pull port) _ :: fs, .pulled v _ => decide (height < fs.length) || match v with
        | .int n => (port == "from" && n == first) || (port == "to" && n == bound)
        | _ => false
      | _, _ => true
    | _ => true

/-- Whether the turn under way begins to resolve an output, for a trigger and on frames of some height. -/
def Engine.Turn.asks (t : Engine.Turn) (node port : String) (T height : Nat) : Bool :=
  match t.next with
  | some (s, .call (.output n p)) => n == node && p == port && s.scope.trigger == T && s.frames.length == height
  | _ => false

/-- Whether a behaviour is about to be told a whole number, in a trigger and on frames of some height. -/
def Engine.Turn.tellsInt (t : Engine.Turn) (v : Int) (T height : Nat) : Bool :=
  match t.next with
  | some (s, .back (.pulled (.int n) _)) => n == v && s.scope.trigger == T && s.frames.length == height &&
      match s.frames with
      | .behavior _ _ _ :: _ => true
      | _ => false
  | _ => false

section Checks

variable {run : Nat → Engine.Turn} {a n : Nat} {s s' : Strand} {i : Invocation} {first bound : Int} {t : Engine.Turn}
  {sig : Signal} {node : String}

theorem Engine.Turn.not_carries_of_spares (h : t.spares node = true) (hn : t.next = some (s, sig)) (c : Command) :
    ¬sig.Carries c := by
  rintro (rfl | ⟨i, k, rfl⟩) <;> simp [spares, hn] at h

theorem Engine.Turn.ne_of_spares (h : t.spares node = true) (hn : t.next = some (s, .call (.invoke i))) :
    i.node ≠ node := by
  simpa [spares, hn] using h

theorem Engine.Turn.ended_of_bears {height : Nat} (h : t.bears height first bound = true) (hn : t.next = some (s, sig))
    (hended : sig.Ended) : height < s.frames.length := by
  cases sig with
  | call c => exact hended.elim
  | back r =>
    simp only [bears, hn, Bool.and_eq_true, decide_eq_true_eq] at h
    exact h.2.1
  | raise err =>
    simp only [bears, hn, Bool.and_eq_true, decide_eq_true_eq] at h
    exact Nat.lt_of_succ_lt h.2

/-- What a loop pulls. -/
theorem Engine.Turn.pulled_of_bears {height : Nat} {v : Value} {ds : Dependencies} {j : Invocation} {port : String}
    {c : Except Raised Value → Script} {fs : List Frame} (h : t.bears height first bound = true)
    (hn : t.next = some (s, .back (.pulled v ds))) (hf : s.frames = .behavior j (.pull port) c :: fs)
    (hheight : fs.length = height) : (port = "from" → v = .int first) ∧ (port = "to" → v = .int bound) := by
  subst hheight
  simp only [bears, hn, hf, Bool.and_eq_true, Bool.or_eq_true, decide_eq_true_eq] at h
  have hv := h.2.2.resolve_left (lt_irrefl _)
  cases v with
  | int k =>
    simp only [Bool.or_eq_true, Bool.and_eq_true, beq_iff_eq] at hv
    rcases hv with ⟨rfl, rfl⟩ | ⟨rfl, rfl⟩
    · exact ⟨fun _ => rfl, fun h => absurd h (by decide)⟩
    · exact ⟨fun h => absurd h (by decide), fun _ => rfl⟩
  | _ => cases hv

theorem Engine.Turn.Bears.of_bears (h : t.bears s.frames.length first bound = true) : t.Bears s first bound := by
  have hrunning : t.engine.running = true := by
    rw [Engine.Turn.bears, Bool.and_eq_true] at h
    exact h.1
  refine ⟨fun sig hended hres => ?_, hrunning, fun f err hres => ?_, fun v htold => ?_, fun v htold => ?_⟩
  · obtain ⟨s', hn, -, hf⟩ := hres
    have hlt := Engine.Turn.ended_of_bears h hn hended
    rw [hf] at hlt
    exact lt_irrefl _ hlt
  · obtain ⟨s', hn, -, hf⟩ := hres
    simp only [Engine.Turn.bears, hn, hf, Bool.and_eq_true, decide_eq_true_eq] at h
    exact lt_irrefl _ h.2
  all_goals
    obtain ⟨j, c, ds, s', hn, -, hf⟩ := htold
    obtain ⟨hfirst, hbound⟩ := Engine.Turn.pulled_of_bears h hn hf rfl
  · rw [hfirst rfl]
    rfl
  · rw [hbound rfl]
    rfl

theorem Sole.of_spares (hplays : ∀ k < n, Play (run k) (run (k + 1)))
    (hbegins : (run a).next = some (s, .call (.invoke i))) {m : Node}
    (hnode : (run a).engine.nodeWithKind i.node = .ok (m, i.kind))
    (h : ∀ k, a < k → k ≤ n → (run k).spares i.node = true) : Sole run a n s i := by
  refine ⟨fun k hak hkn => ?_, fun k hak hkn _ s' j hn _ => Engine.Turn.ne_of_spares (h k hak hkn) hn⟩
  have hprogram : (run k).engine.program = (run a).engine.program := by
    refine program_run (fun l hl => hplays l (hl.trans hkn)) hak.le fun l hal hlk s' sig hn c => ?_
    rcases Nat.eq_or_lt_of_le hal with rfl | hal
    · obtain ⟨-, rfl⟩ := Prod.mk.inj (Option.some.inj (hbegins.symm.trans hn))
      rintro (heq | ⟨_, _, heq⟩) <;> cases heq
    · exact Engine.Turn.not_carries_of_spares (h l hal (hlk.trans hkn).le) hn c
  obtain ⟨m', hm'⟩ := ((Engine.Suits.of_program rfl fun _ => True).kinds i.node trivial i.kind).mp ⟨m, hnode⟩
  exact ((Engine.Suits.of_program hprogram fun _ => True).kinds i.node trivial i.kind).mpr ⟨m', hm'⟩

theorem Engine.Turn.next_of_asks {port : String} {T height : Nat} (h : t.asks node port T height = true) :
    ∃ s, t.next = some (s, .call (.output node port)) ∧ s.scope.trigger = T ∧ s.frames.length = height := by
  unfold asks at h
  split at h
  · next s _ _ hn =>
    simp only [Bool.and_eq_true, beq_iff_eq] at h
    obtain ⟨⟨⟨rfl, rfl⟩, hT⟩, hheight⟩ := h
    exact ⟨s, hn, hT, hheight⟩
  · cases h

theorem Engine.Turn.next_of_tellsInt {v : Int} {T height : Nat} (h : t.tellsInt v T height = true) :
    ∃ s ds, t.next = some (s, .back (.pulled (.int v) ds)) ∧ s.scope.trigger = T ∧ s.frames.length = height ∧
      ¬∀ f ∈ s.frames, f.Outer := by
  unfold tellsInt at h
  split at h
  · next s _ ds hn =>
    simp only [Bool.and_eq_true, beq_iff_eq] at h
    obtain ⟨⟨⟨rfl, hT⟩, hheight⟩, htop⟩ := h
    refine ⟨s, ds, hn, hT, hheight, fun hout => ?_⟩
    split at htop
    · next hf => exact hout _ (hf ▸ List.mem_cons_self)
    · cases htop
  · cases h

/-- A resolution of which only its beginning and its end are on frames of their height. -/
theorem Resolves.of_bears (hopens : Opens (run 0)) (hplays : ∀ l < n, Play (run l) (run (l + 1))) {j : Nat}
    (hjn : j < n) {port : String} {v : Int} {T height : Nat} (hasks : (run j).asks node port T height = true)
    (htells : (run n).tellsInt v T height = true) (h : ∀ l, j < l → l < n → (run l).bears height first bound = true) :
    ∃ s s' ds, Resolves run j n s s' node port (.back (.pulled (.int v) ds)) ∧ s.scope.trigger = T := by
  obtain ⟨s, hbegins, hT, hheight⟩ := Engine.Turn.next_of_asks hasks
  obtain ⟨s', ds, hends, hT', hheight', hinside⟩ := Engine.Turn.next_of_tellsInt htells
  refine ⟨s, s', ds, .of_heights hopens hplays hjn hbegins hends (hT'.trans hT.symm) (hheight'.trans hheight.symm)
    hinside trivial fun l hjl hln s'' sig'' hn _ hsame hended => ?_, hT⟩
  have hlt := Engine.Turn.ended_of_bears (h l hjl hln) hn hended
  omega

end Checks

/-! ## A loop that hands on its index -/

/-- Shows its input. -/
def showing : Behavior := fun _ => .wait (.pull "in") fun
  | .ok _ => .finish .null
  | .error err => .fail err

/-- Hands on its input, and fails at 0. -/
def picking : Behavior := fun _ => .wait (.pull "in") fun
  | .ok v => if v.same (.int 0) then .fail (.fault .zeroDivision) else .finish (.dict [(.str "value", v)])
  | .error err => .fail err

/-- Hands on its input. -/
def handing : Behavior := fun _ => .wait (.pull "in") fun
  | .ok v => .finish (.dict [(.str "value", v)])
  | .error err => .fail err

/-- Hands on its input, and has a value of its own where there is none. -/
def sheltering : Behavior := fun _ => .wait (.pull "in") fun
  | .ok v => .finish (.dict [(.str "value", v)])
  | .error _ => .finish (.dict [(.str "value", .int (-1))])

theorem onlyPulls_picking : (picking .null).OnlyPulls picking := by
  refine .pull (fun v => ?_) fun _ => rfl
  dsimp only
  split
  · exact .fail _
  · exact .finish _

theorem onlyPulls_handing : (handing .null).OnlyPulls handing := .pull (fun _ => .finish _) fun _ => rfl

theorem functional_sheltering : sheltering.Functional := by
  refine ⟨fun given hgiven o o' ho ho' => ?_, .wait fun r => ?_⟩
  · cases ho with
    | wait hw => exact absurd rfl (hw _)
    | pull hv ho =>
      cases ho' with
      | wait hw => exact absurd rfl (hw _)
      | pull hv' ho' =>
        obtain rfl := hgiven _ _ _ hv hv'
        cases ho
        cases ho'
        rfl
      | lack hp => exact absurd hv (hp _)
    | lack hp err ho =>
      cases ho' with
      | wait hw => exact absurd rfl (hw _)
      | pull hv' => exact absurd hv' (hp _)
      | lack _ err' ho' =>
        cases ho
        cases ho'
        rfl
  · cases r <;> exact .finish _

/-- A loop shows its index, which it hands on through two nodes. -/
def tallySession (first bound : Int) (b : Behavior) : Engine.Turn :=
  opening (.initial {}
    { kinds := [Library.countingKind,
        .sketch "pick" .expression [{ id := "in" }] [Library.yields "value" .any] (some picking),
        .sketch "link" .expression [{ id := "in" }] [Library.yields "value" .any] (some b),
        .sketch "show" .statement [{ id := "exec", valueType := .exec }, { id := "in" }] [] (some showing)] }
    { nodes := [{ serial := 0, id := "f", kind := "logic.for", literals := [("from", .int first), ("to", .int bound)] },
        { serial := 1, id := "q", kind := "pick" }, { serial := 2, id := "g", kind := "link" },
        { serial := 3, id := "p", kind := "show" }]
      edges := [⟨"f", "loop", "p", "exec"⟩, ⟨"f", "index", "q", "in"⟩, ⟨"q", "value", "g", "in"⟩,
        ⟨"g", "value", "p", "in"⟩]
      nextSerial := 4 } 0.01)
    [.runNode "f"]

/-- The state after a number of steps of that session. -/
def tallied (first bound : Int) (b : Behavior) (n : Nat) : Engine.Turn :=
  (follow n (tallySession first bound b, fun _ => {})).1

/-- The strand on which the loop is invoked. -/
def tallyStrand : Strand :=
  { id := 0, scope := { trigger := 1 }, frames := [.walk [], .trigger "f" .direct, .direct, .session] }

/-- Whether the loop of that session has an end. -/
def Engine.Turn.closesTally (t : Engine.Turn) : Bool :=
  match t.next with
  | some (s, .back (.invoked .null _)) => s.id == 0 && match s.frames with
    | [.walk [], .trigger "f" .direct, .direct, .session] => true
    | _ => false
  | _ => false

theorem Engine.Turn.resumes_of_closesTally {t : Engine.Turn} (h : t.closesTally = true) :
    ∃ j, t.Resumes tallyStrand (.back (.invoked .null j)) := by
  unfold closesTally at h
  split at h
  · next s j hn =>
    rw [Bool.and_eq_true, beq_iff_eq] at h
    obtain ⟨hid, hframes⟩ := h
    split at hframes
    · next hf => exact ⟨j, s, hn, hid, hf⟩
    · cases hframes
  · cases h

/-- The invocation of the loop. -/
def tallyInvocation : Invocation := { serial := 0, node := "f", kind := Library.countingKind, mode := .exec }

theorem next_tallied (first bound : Int) (b : Behavior) :
    (tallied first bound b 3).next = some (tallyStrand, .call (.invoke tallyInvocation)) := by
  with_unfolding_all rfl

theorem opens_tallied (first bound : Int) (b : Behavior) : Opens (tallied first bound b 0) := by
  show Opens (tallySession first bound b)
  refine ⟨_, _, _, _, _, ?_, rfl⟩
  exact ⟨by simp, by simp⟩

theorem of_mem_kinds_tally {first bound : Int} {b : Behavior} {k : Kind Behavior}
    (hk : k ∈ (tallySession first bound b).engine.program.registry.kinds) :
    k.Shaped ∧ ∀ b', k.dataOnly = true → k.behavior = some b' → b' = picking ∨ b' = b := by
  rcases List.mem_cons.mp hk with rfl | hk
  · exact ⟨nofun, nofun⟩
  rcases List.mem_cons.mp hk with rfl | hk
  · exact ⟨fun _ => by decide, fun b' _ hb => .inl (Option.some.inj hb).symm⟩
  rcases List.mem_cons.mp hk with rfl | hk
  · refine ⟨fun _ p hp => ?_, fun b' _ hb => .inr (Option.some.inj hb).symm⟩
    rw [List.mem_singleton.mp hp]
    rfl
  · rw [List.mem_singleton.mp hk]
    exact ⟨nofun, nofun⟩

theorem region_tally (first bound : Int) {b : Behavior} (hb : b.Functional) :
    (tallySession first bound b).engine.program.Region fun _ => True := by
  refine .of_kinds fun k hk => ⟨(of_mem_kinds_tally hk).1, fun b' hd hb' => ?_⟩
  rcases (of_mem_kinds_tally hk).2 b' hd hb' with rfl | rfl
  · exact onlyPulls_picking.functional
  · exact hb

theorem strict_tally (first bound : Int) {b : Behavior} (hb : (b .null).OnlyPulls b) :
    (tallySession first bound b).engine.program.Strict fun _ => True := by
  refine ⟨region_tally first bound hb.functional, fun _ hn hd hb' => ?_⟩
  rcases (of_mem_kinds_tally (Program.mem_kinds hn)).2 _ hd hb' with rfl | rfl
  · exact onlyPulls_picking.exacting
  · exact hb.exacting

theorem program_tallied {first bound : Int} {b : Behavior} {k n : Nat}
    (hgoes : ∀ k < n, (Engine.advance (tallied first bound b k)).isSome = true)
    (hspares : ∀ k < n, (tallied first bound b k).spares "" = true) (hk : k ≤ n) :
    (tallied first bound b k).engine.program = (tallySession first bound b).engine.program := by
  have hplays : ∀ l < k, Play (tallied first bound b l) (tallied first bound b (l + 1)) :=
    fun l hl => .of_advance (advance_follow (hgoes l (hl.trans_le hk)))
  exact program_run hplays (Nat.zero_le k) fun l _ hl _ _ hn =>
    Engine.Turn.not_carries_of_spares (hspares l (hl.trans_le hk)) hn

theorem loops_tallied {first bound : Int} {b : Behavior} {n : Nat}
    (hbears : ∀ k < n, 3 < k → (tallied first bound b k).bears 4 first bound = true) :
    Loops (tallied first bound b) 3 n tallyStrand tallyInvocation first bound :=
  ⟨Library.build_countingLoop, next_tallied first bound b, fun k hak hk => .of_bears (hbears k hk hak)⟩

theorem sole_tallied {first bound : Int} {b : Behavior} {n : Nat}
    (hplays : ∀ k < n, Play (tallied first bound b k) (tallied first bound b (k + 1)))
    (hspares : ∀ k ≤ n, 3 < k → (tallied first bound b k).spares "f" = true) :
    Sole (tallied first bound b) 3 n tallyStrand tallyInvocation := by
  obtain ⟨m, hm⟩ : ∃ m, (tallied first bound b 3).engine.nodeWithKind "f" = .ok (m, Library.countingKind) := by
    with_unfolding_all exact ⟨_, rfl⟩
  exact .of_spares hplays (next_tallied first bound b) hm fun k hak hk => hspares k hk hak

/-- A node yields what it hands on. -/
theorem Program.yields_handed {p : Program} {shown : String → String → Option Value} {node : String} {n : Node}
    {k : Kind Behavior} {b : Behavior} {x : Edge} {v : Value} (hn : p.nodeWithKind node = .ok (n, k))
    (hport : (k.outputPort "value").isSome = true) (hd : k.dataOnly = true) (hb : k.behavior = some b)
    (hx : p.Wired node "in" x) (hv : p.Yields shown x.source x.sourcePort v)
    (hhands : ∀ given fails, given "in" v → (b .null).Comes b given fails (some (.dict [(.str "value", v)]))) :
    p.Yields shown node "value" v :=
  (yields_ran hn hport hd).mpr ⟨_, ⟨b, hb, hhands _ _ (.inl ⟨x, hx, hv⟩)⟩, Dict.get?_set_self [] "value" v⟩

/-- What evaluation yields of the nodes that an index is handed on through. -/
theorem yields_tally (first bound : Int) {shown : String → String → Option Value} {v : Value}
    (hindex : shown "f" "index" = some v) (hv : v.same (.int 0) = false) :
    (tallySession first bound sheltering).engine.program.Yields shown "g" "value" v := by
  obtain ⟨n₁, k₁, hn₁, hport₁, hd₁⟩ : ∃ n k, (tallySession first bound sheltering).engine.program.nodeWithKind "f" =
      .ok (n, k) ∧ (k.outputPort "index").isSome = true ∧ k.dataOnly = false := by
    with_unfolding_all exact ⟨_, _, rfl, rfl, rfl⟩
  obtain ⟨n₂, k₂, hn₂, hport₂, hd₂, hb₂, hx₂⟩ : ∃ n k, (tallySession first bound sheltering).engine.program.nodeWithKind
      "q" = .ok (n, k) ∧ (k.outputPort "value").isSome = true ∧ k.dataOnly = true ∧ k.behavior = some picking ∧
      (tallySession first bound sheltering).engine.program.Wired "q" "in" ⟨"f", "index", "q", "in"⟩ := by
    with_unfolding_all exact ⟨_, _, rfl, rfl, rfl, rfl, fun _ => rfl⟩
  obtain ⟨n₃, k₃, hn₃, hport₃, hd₃, hb₃, hx₃⟩ : ∃ n k, (tallySession first bound sheltering).engine.program.nodeWithKind
      "g" = .ok (n, k) ∧ (k.outputPort "value").isSome = true ∧ k.dataOnly = true ∧ k.behavior = some sheltering ∧
      (tallySession first bound sheltering).engine.program.Wired "g" "in" ⟨"q", "value", "g", "in"⟩ := by
    with_unfolding_all exact ⟨_, _, rfl, rfl, rfl, rfl, fun _ => rfl⟩
  have hindex' := (Program.yields_shown hn₁ hport₁ hd₁).mpr hindex
  have hpicked := Program.yields_handed hn₂ hport₂ hd₂ hb₂ hx₂ hindex' fun given fails hgiven => ?_
  · exact Program.yields_handed hn₃ hport₃ hd₃ hb₃ hx₃ hpicked fun given fails hgiven => .pull hgiven (.finish _)
  · refine .pull hgiven ?_
    show Script.Comes _ _ _ (if v.same (.int 0) = true then _ else _) _
    rw [hv]
    exact .finish _

/-- The loop counts from 1 to 2, and what is pulled in its second pass is 2. -/
theorem loop_passes_tallied : ∃ j, (tallied 1 3 handing 74).Resumes tallyStrand (.back (.invoked .null j)) ∧
    followed (tallied 1 3 handing) tallyStrand 3 74 = ["loop", "loop", "done"] ∧
    followed (tallied 1 3 handing) tallyStrand 3 64 = ["loop", "loop"] ∧
    ∃ s₁ s₂ ds, Resolves (tallied 1 3 handing) 49 64 s₁ s₂ "g" "value" (.back (.pulled (.int 2) ds)) ∧
      s₂.scope.shown "f" "index" = some (.int 2) ∧
      (tallySession 1 3 handing).engine.program.Yields s₂.scope.shown "g" "value" (.int 2) := by
  have hgoes : ∀ k < 74, (Engine.advance (tallied 1 3 handing k)).isSome = true := by decide +kernel
  have hbears : ∀ k < 74, 3 < k → (tallied 1 3 handing k).bears 4 1 3 = true := by decide +kernel
  have hspares : ∀ k < 75, 3 < k → (tallied 1 3 handing k).spares "f" = true := by decide +kernel
  have hidle : ∀ k < 74, (tallied 1 3 handing k).spares "" = true := by decide +kernel
  have hnested : ∀ k < 64, 49 < k → (tallied 1 3 handing k).bears 7 1 3 = true := by decide +kernel
  have hdone : followed (tallied 1 3 handing) tallyStrand 3 74 = ["loop", "loop", "done"] := by decide +kernel
  have hpass : followed (tallied 1 3 handing) tallyStrand 3 64 = ["loop", "loop"] := by decide +kernel
  have hopens := opens_tallied 1 3 handing
  have hbeats : ∀ k < 74, Beat (tallied 1 3 handing k) (tallied 1 3 handing (k + 1)) :=
    fun k hk => .of_advance (advance_follow (hgoes k hk))
  have hplays : ∀ k < 74, Play (tallied 1 3 handing k) (tallied 1 3 handing (k + 1)) := fun k hk => (hbeats k hk).play
  have hloops := loops_tallied hbears
  have hsole := sole_tallied hplays fun k hk => hspares k (Nat.lt_succ_of_le hk)
  have hsteady : Steady (tallied 1 3 handing) (tallySession 1 3 handing).engine.program (fun _ => True) 1 64 1 := by
    refine ⟨by decide, strict_tally 1 3 onlyPulls_handing, ?_, by with_unfolding_all rfl, fun k _ hk => ?_⟩
    · with_unfolding_all exact ⟨_, _, _, _, _, rfl⟩
    · exact .of_program (program_tallied hgoes hidle (hk.le.trans (by decide))) _
  obtain ⟨-, -, hends, hpulls⟩ := loop_passes_present hopens hbeats (by decide) hloops
  obtain ⟨s₁, s₂, ds, hres, hT⟩ : ∃ s₁ s₂ ds, Resolves (tallied 1 3 handing) 49 64 s₁ s₂ "g" "value"
      (.back (.pulled (.int 2) ds)) ∧ s₁.scope.trigger = 1 :=
    Resolves.of_bears hopens (fun l hl => hplays l (hl.trans (by decide))) (by decide) (by decide +kernel)
      (by decide +kernel) fun l hjl hl => hnested l hl hjl
  obtain ⟨-, hresolved⟩ := hpulls hsole 64 1 (by decide) (by decide) hpass
  obtain ⟨hshown, hpresents⟩ := hresolved _ _ _ _ _ _ _ _ _ hsteady hres hT trivial
  obtain ⟨j, hj⟩ : ∃ j, (tallied 1 3 handing 74).Resumes tallyStrand (.back (.invoked .null j)) :=
    Engine.Turn.resumes_of_closesTally (by decide +kernel)
  cases hpresents with
  | value hyields => exact ⟨j, hj, hdone, hpass, s₁, s₂, ds, hres, hshown, hyields⟩

/-- Where a failed pull is sheltered, the loop goes on from 0 to 1, and in its second pass what is pulled is still that
of the first. -/
theorem loop_passes_stale : Loops (tallied 0 2 sheltering) 3 60 tallyStrand tallyInvocation 0 2 ∧
    Sole (tallied 0 2 sheltering) 3 60 tallyStrand tallyInvocation ∧
    ((tallySession 0 2 sheltering).engine.program.Region fun _ => True) ∧
    (∀ k ≤ 60, (tallied 0 2 sheltering k).engine.program = (tallySession 0 2 sheltering).engine.program) ∧
    followed (tallied 0 2 sheltering) tallyStrand 3 60 = ["loop", "loop", "done"] ∧
    followed (tallied 0 2 sheltering) tallyStrand 3 50 = ["loop", "loop"] ∧
    ∃ s₁ s₂ ds, Resolves (tallied 0 2 sheltering) 49 50 s₁ s₂ "g" "value" (.back (.pulled (.int (-1)) ds)) ∧
      s₁.scope.trigger = tallyStrand.scope.trigger ∧ s₂.scope.shown "f" "index" = some (.int 1) ∧
      ∀ v, (tallySession 0 2 sheltering).engine.program.Yields s₂.scope.shown "g" "value" v ↔ v = .int 1 := by
  have hgoes : ∀ k < 60, (Engine.advance (tallied 0 2 sheltering k)).isSome = true := by decide +kernel
  have hbears : ∀ k < 60, 3 < k → (tallied 0 2 sheltering k).bears 4 0 2 = true := by decide +kernel
  have hspares : ∀ k < 61, 3 < k → (tallied 0 2 sheltering k).spares "f" = true := by decide +kernel
  have hidle : ∀ k < 60, (tallied 0 2 sheltering k).spares "" = true := by decide +kernel
  have hdone : followed (tallied 0 2 sheltering) tallyStrand 3 60 = ["loop", "loop", "done"] := by decide +kernel
  have hpass : followed (tallied 0 2 sheltering) tallyStrand 3 50 = ["loop", "loop"] := by decide +kernel
  have hopens := opens_tallied 0 2 sheltering
  have hbeats : ∀ k < 60, Beat (tallied 0 2 sheltering k) (tallied 0 2 sheltering (k + 1)) :=
    fun k hk => .of_advance (advance_follow (hgoes k hk))
  have hplays : ∀ k < 60, Play (tallied 0 2 sheltering k) (tallied 0 2 sheltering (k + 1)) :=
    fun k hk => (hbeats k hk).play
  have hloops := loops_tallied hbears
  have hsole := sole_tallied hplays fun k hk => hspares k (Nat.lt_succ_of_le hk)
  have hregion := region_tally 0 2 functional_sheltering
  obtain ⟨s₁, s₂, ds, hres, hT⟩ : ∃ s₁ s₂ ds, Resolves (tallied 0 2 sheltering) 49 50 s₁ s₂ "g" "value"
      (.back (.pulled (.int (-1)) ds)) ∧ s₁.scope.trigger = 1 :=
    have hnested : ∀ l, 49 < l → l < 50 → (tallied 0 2 sheltering l).bears 7 0 2 = true :=
      fun l hjl hl => absurd hl (Nat.not_lt.mpr hjl)
    Resolves.of_bears hopens (fun l hl => hplays l (hl.trans (by decide))) (by decide) (by decide +kernel)
      (by decide +kernel) hnested
  have hc := (hloops.mono (k := 50) (by decide)).counting_of_next hopens (fun k hk => hbeats k (hk.trans (by decide)))
    (by decide) hres.ends (hres.trigger.trans hT)
  rw [hpass] at hc
  have hshown : s₂.scope.shown "f" "index" = some (.int 1) :=
    hc.shows (m := 1) (hsole.mono (by decide)) fun _ _ hsig => by cases hsig
  have hyields := yields_tally 0 2 hshown (by decide +kernel)
  exact ⟨hloops, hsole, hregion, fun k hk => program_tallied hgoes hidle hk, hdone, hpass, s₁, s₂, ds, hres, hT, hshown,
    fun v => ⟨fun hv => hregion.unique trivial hv hyields, fun hv => hv ▸ hyields⟩⟩

end Patchbay
