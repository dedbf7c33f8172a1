import Patchbay.Proofs.Present
import Patchbay.Proofs.Returns

/-!
# Counting loops

A counting loop of the library pulls the numbers that it counts between, and follows its output once for each number,
which it publishes as its index, before it follows the other one. Whatever runs meanwhile is above the frames of the
loop, and leaves them as they are.

Contents:
* `Library.counting` and the scripts before and after it: the behaviour of a counting loop, step by step.
* `followed`: the outputs that an invocation has continued along in a run.
* `Halfway`: how far a loop is in its script, with the outputs that it has followed and the index of its pass.
* `Counting`: how the strand of a loop stands, while the loop goes on or waits for something.
* `Engine.Turn.Bears`: a turn that lets the loop go on.

Results:
* `Library.countingLoop_behavior`: the script of the library is that of the steps.
* `Staffed.heir`: a turn inside a trigger leaves its strand in the trigger, above the frames in progress.
* `Counting.turn`: every turn of the strand of a loop.
-/

namespace Patchbay

namespace Library

open Patchbay.Action

/-! ## The script -/

/-- A counting loop follows its last output and ends. -/
def ending : Script := .wait (.advance "done") fun r => ofExcept r fun _ => .finish .null

/-- The loop follows its output for a pass, and goes on with the next index. -/
def passing (index bound : Int) : Script :=
  .wait (.advance "loop") fun r => ofExcept r fun _ => .again (.tuple [.int (index + 1), .int bound])

/-- The loop publishes its index. -/
def publishing (index bound : Int) : Script :=
  .ask (.memoize "index" (.int index)) fun r => ofExcept r fun _ => passing index bound

/-- The loop lets others run, and goes on unless execution was stopped. -/
def checking (index bound : Int) : Script :=
  .wait .checkpoint fun r => ofExcept r fun goes => if goes then publishing index bound else ending

/-- The loop has a pass at an index, if that is below the bound. -/
def counting (index bound : Int) : Script := if index < bound then checking index bound else ending

/-- A value is made a whole number. -/
def converting (v : Value) (k : Int → Script) : Script :=
  ofExcept (Fault.lift (Expr.toInteger v)) fun w =>
    match w with
    | .int n => k n
    | _ => .fail (.fault .type)

/-- The loop pulls its bound. -/
def bounding (first : Int) : Script := .wait (.pull "to") fun r => ofExcept r fun v => converting v (counting first)

/-- The loop pulls its first index. -/
def starting : Script := .wait (.pull "from") fun r => ofExcept r fun v => converting v bounding

theorem converting_int {v : Value} {n : Int} (h : Expr.toInteger v = .ok (.int n)) (k : Int → Script) :
    converting v k = k n := by
  simp only [converting, h]
  rfl

theorem countingPass_eq (index bound : Int) : toScript (countingPass index bound) = counting index bound := by
  unfold countingPass counting
  split
  · refine congrArg (Script.wait .checkpoint) (funext fun r => ?_)
    cases r with
    | error err => rfl
    | ok goes => cases goes <;> rfl
  · rfl

/-- What the loop does, step by step. -/
theorem countingLoop_behavior : ∃ b, countingLoop.behavior = some b ∧ b .null = starting ∧
    ∀ index bound, b (.tuple [.int index, .int bound]) = counting index bound := by
  have hconverting (v : Value) (k : Int → Script) : converting v k = (do
      match ← primitive (Expr.toInteger v) with
      | .int n => pure n
      | _ => fail (.fault .type) : Action Int) k := by
    refine congrArg (ofExcept (Fault.lift (Expr.toInteger v))) (funext fun w => ?_)
    cases w <;> rfl
  refine ⟨_, rfl, ?_, countingPass_eq⟩
  have hpulling (port : String) (k : Int → Script) : pullInteger port k =
      .wait (.pull port) fun r => ofExcept r fun v => converting v k := by
    simp only [hconverting]
    rfl
  show pullInteger "from" (fun first => pullInteger "to" fun bound => toScript (countingPass first bound)) = starting
  simp only [hpulling, countingPass_eq]
  rfl

end Library

/-- Whether nodes of a kind count as counting loops of the library do. -/
structure Kind.Counts (k : Kind Behavior) : Prop where
  behavior : k.behavior = Library.countingLoop.behavior
  dataOnly : k.dataOnly = false
  loop : (k.execOutput "loop").isSome = true
  done : (k.execOutput "done").isSome = true
  index : (k.outputPort "index").isSome = true

/-- The kind of counting loops. -/
def Library.countingKind : Kind Behavior :=
  countingLoop.toKind .statement [given "from" .number (.int 0), given "to" .number (.int 10)]
    [leads "loop", leads "done", yields "index" .number]

theorem Library.build_countingLoop : countingLoop.build = .ok countingKind := rfl

theorem Kind.Counts.of_build {k : Kind Behavior} (h : Library.countingLoop.build = .ok k) : k.Counts := by
  obtain rfl := Except.ok.inj (Library.build_countingLoop.symm.trans h)
  exact ⟨rfl, rfl, rfl, rfl, rfl⟩

/-! ## The strand of a turn -/

/-- A turn inside a trigger leaves its strand in the trigger and above the frames that it had in progress; and what
holds of the strands that a turn leaves holds of it. -/
theorem Staffed.heir {lo : Nat → Dependency → Nat} {L : Ledger} {t : Engine.Turn} (h : Staffed t)
    (hL : Orderly lo L t) {s : Strand} {sig : Signal} (hn : t.next = some (s, sig))
    (hinside : ¬∀ f ∈ sig.below s.frames, f.Outer) :
    ∃ x ∈ (t.engine.turn s sig).population, x.1.id = s.id ∧ x.1.scope.trigger = s.scope.trigger ∧
      sig.below s.frames <:+ x.1.frames ∧ ∀ P, t.engine.Finds P (t.engine.turn s sig) → P x := by
  have hmem := Engine.Turn.mem_population_of_next hn
  have hplaced := hL.placed _ hmem
  have htop : ∀ f, sig.top s.frames = some f → ¬f.Outer := by
    intro f hf hout
    cases sig with
    | call c => cases hf
    | back | raise =>
      obtain ⟨rest, hrest⟩ : ∃ rest, s.frames = f :: rest := List.head?_eq_some_iff.mp hf
      have hall := hplaced.sits.outer_of_outer hrest hout
      refine hinside fun g hg => hall g ?_
      exact List.mem_of_mem_tail hg
  obtain ⟨own, news, hpop, -, -, hown, hover⟩ := (turn_passes t.engine s sig).population
  cases own with
  | none =>
    rcases hover rfl with ⟨f, hf, hout⟩ | ⟨-, hnil⟩
    · exact absurd hout (htop f hf)
    · exact absurd (by simp [hnil]) hinside
  | some x =>
    have hx : x ∈ (t.engine.turn s sig).population := by simp [hpop]
    obtain hheir : Heir _ _ _ x := (hown x rfl).resolve_right fun hsession => htop _ hsession.1 trivial
    obtain ⟨pushed, hframes, -⟩ := hheir.frames
    have hsuffix : sig.below s.frames <:+ x.1.frames := ⟨pushed, hframes.symm⟩
    -- it is no other strand and no new one
    have hold : x ∉ t.engine.strands := by
      intro hx
      have hids := h.ids
      rw [Engine.Turn.population_of_next hn, List.map_cons, List.nodup_cons] at hids
      exact hids.1 (List.mem_map.mpr ⟨x, hx, hheir.id⟩)
    have hnew : ¬Newcomer x := by
      intro hnew
      refine hinside fun f hf => ?_
      have hmem := hsuffix.subset hf
      rw [hnew.frames, List.mem_singleton] at hmem
      rw [hmem]
      trivial
    refine ⟨x, hx, hheir.id, ?_, hsuffix, fun P hfinds => ((hfinds x hx).resolve_left hold).resolve_left hnew⟩
    obtain ⟨own', g⟩ :=
      turn_goes (e := t.engine) hplaced.sits (fun y hy => (hplaced.within.last.kept y hy).1) hL.positive
    obtain ⟨news', hpop', hnews'⟩ := g.population
    have hx' := hx
    rw [hpop', List.mem_append, List.mem_append] at hx'
    rcases hx' with hx' | hx' | hx'
    · cases g.follows x (Option.mem_toList.mp hx') with
      | moves hm => exact hm.trigger
      | fresh _ hlt =>
        have hopens : ¬sig.OpensScope := by
          intro hopens
          cases sig with
          | call c =>
            have hc : c.Outer := by
              cases c with
              | trigger | request => trivial
              | _ => exact hopens.elim
            exact hinside (hplaced.sits.outer_of_call hc)
          | _ => exact hopens
        rw [t.engine.nextTrigger_turn s hopens] at hlt
        exact absurd hlt (lt_irrefl _)
    · exact absurd (hnews' x hx') hnew
    · exact absurd hx' hold

/-! ## Outputs that are followed -/

/-- The output that a script continues along first. -/
def Script.followed? : Script → Option String
  | .wait (.advance port) _ => some port
  | _ => none

/-- The output that the invocation on the frames of a strand continues along in the turn under way. -/
def Engine.Turn.follows? (t : Engine.Turn) (s : Strand) : Option String :=
  match t.next with
  | some (s', .call (.behave _ script)) =>
    if s'.id = s.id ∧ s'.frames.length = s.frames.length then script.followed? else none
  | _ => none

/-- The outputs that the invocation on the frames of a strand continues along, one after the other, from a step until
before another. -/
def followed (run : Nat → Engine.Turn) (s : Strand) (a k : Nat) : List String :=
  (List.range' a (k - a)).filterMap fun j => (run j).follows? s

section Followed

variable {run : Nat → Engine.Turn} {s : Strand} {a k : Nat} {t : Engine.Turn}

theorem followed_succ (h : a ≤ k) : followed run s a (k + 1) = followed run s a k ++ ((run k).follows? s).toList := by
  have hrange : List.range' a (k + 1 - a) = List.range' a (k - a) ++ [k] := by
    rw [Nat.succ_sub h, List.range'_1_concat, Nat.add_sub_cancel' h]
  rw [followed, hrange, List.filterMap_append]
  rfl

/-- A turn of the invocation itself. -/
theorem Engine.Turn.follows?_behave {s' : Strand} {i : Invocation} {script : Script}
    (hn : t.next = some (s', .call (.behave i script))) (hid : s'.id = s.id) (hf : s'.frames = s.frames) :
    t.follows? s = script.followed? := by
  simp only [follows?, hn, hid, hf, and_self, if_true]

theorem Engine.Turn.follows?_of_none (hn : t.next = none) : t.follows? s = none := by
  simp only [follows?, hn]

/-- A turn of another strand, or one above more frames. -/
theorem Engine.Turn.follows?_of_ne {s' : Strand} {sig : Signal} (hn : t.next = some (s', sig))
    (h : s'.id = s.id → s'.frames.length ≠ s.frames.length) : t.follows? s = none := by
  unfold follows?
  split
  · next hn' =>
    obtain ⟨rfl, -⟩ := Prod.mk.inj (Option.some.inj (hn.symm.trans hn'))
    exact if_neg fun heq => h heq.1 heq.2
  · rfl

end Followed

/-! ## How far a loop is -/

/-- The outputs that a loop follows that counts from `first` to below `bound`. -/
def Library.outputs (first bound : Int) : List String := .replicate (bound - first).toNat "loop" ++ ["done"]

/-- The index of the last of a number of passes. -/
def lastIndex (first : Int) : Nat → Option Int
  | 0 => none
  | m + 1 => some (first + m)

/-- How far a counting loop is that counts from `first` to below `bound`: the outputs that it has followed, the index
that it has published last, and what is left of its script. -/
inductive Halfway (first bound : Int) : List String → Option Int → Script → Prop
  | starting : Halfway first bound [] none Library.starting
  | bounding : Halfway first bound [] none (Library.bounding first)
  | checking {m : Nat} (h : first + m < bound) :
      Halfway first bound (.replicate m "loop") (lastIndex first m) (Library.checking (first + m) bound)
  | publishing {m : Nat} (h : first + m < bound) :
      Halfway first bound (.replicate m "loop") (lastIndex first m) (Library.publishing (first + m) bound)
  | passing {m : Nat} (h : first + m < bound) :
      Halfway first bound (.replicate m "loop") (some (first + m)) (Library.passing (first + m) bound)
  | again {m : Nat} (h : first + m < bound) : Halfway first bound (.replicate (m + 1) "loop") (some (first + m))
      (.again (.tuple [.int (first + m + 1), .int bound]))
  | ending : Halfway first bound (.replicate (bound - first).toNat "loop") (lastIndex first (bound - first).toNat)
      Library.ending
  | finishing : Halfway first bound (Library.outputs first bound) none (.finish .null)

/-- The loop has its next pass, or ends. -/
theorem Halfway.counting {first bound : Int} {m : Nat} (h : m ≤ (bound - first).toNat) :
    Halfway first bound (.replicate m "loop") (lastIndex first m) (Library.counting (first + m) bound) := by
  unfold Library.counting
  split
  · next hlt => exact .checking hlt
  · next hge =>
    have hm : m = (bound - first).toNat := by omega
    rw [hm]
    exact .ending

/-- Whether a scope shows the index of a counting loop, if it has one yet. -/
def Scope.ShowsIndex (sc : Scope) (node : String) (index : Option Int) : Prop :=
  ∀ v, index = some v → sc.shown node "index" = some (.int v)

/-- Whether a strand is another one later, in the same trigger. -/
structure Strand.Same (s s' : Strand) : Prop where
  id : s'.id = s.id
  trigger : s'.scope.trigger = s.scope.trigger

/-- How the strand of a counting loop stands that has followed some outputs. While control flow does not come to the
node again, nothing that the loop runs changes its outputs. -/
inductive Counting (s : Strand) (i : Invocation) (first bound : Int) (calm : Prop) (ports : List String) :
    Strand × Parked → Prop
  /-- the loop goes on -/
  | goes {x : Strand × Parked} {j : Invocation} {script : Script} {index : Option Int} (hsame : s.Same x.1)
      (hf : x.1.frames = s.frames) (hp : x.2 = .turn (.call (.behave j script))) (hnode : j.node = i.node)
      (hkind : j.kind = i.kind) (hhalf : Halfway first bound ports index script)
      (hindex : calm → x.1.scope.ShowsIndex i.node index) : Counting s i first bound calm ports x
  /-- the loop waits -/
  | waits {x : Strand × Parked} {j : Invocation} {w : Wait} {c : Except Raised w.Reply → Script} {before : List String}
      {index : Option Int} (hsame : s.Same x.1) (hbase : Frame.behavior j w c :: s.frames <:+ x.1.frames)
      (hnode : j.node = i.node) (hkind : j.kind = i.kind) (hhalf : Halfway first bound before index (.wait w c))
      (hports : ports = before ++ (Script.wait w c).followed?.toList)
      (hkeeps : calm → "done" ∉ ports → ∃ sc : Scope, sc.ShowsIndex i.node index ∧
        Keeping i.node (.behavior j w c :: s.frames) sc x) : Counting s i first bound calm ports x
  /-- the loop has ended -/
  | ended {x : Strand × Parked} {j : Invocation} (hsame : s.Same x.1) (hf : x.1.frames = s.frames)
      (hp : x.2 = .turn (.back (.invoked .null j)))
      (hports : ports = Library.outputs first bound) : Counting s i first bound calm ports x

/-- Whether a pull of the invocation on the frames of a strand has a value. -/
def Engine.Turn.Tells (t : Engine.Turn) (s : Strand) (port : String) (v : Value) : Prop :=
  ∃ j c ds, t.Resumes { s with frames := .behavior j (.pull port) c :: s.frames } (.back (.pulled v ds))

/-- Whether a loop that was invoked on the frames of a strand goes on by a turn: execution is not stopped, nothing that
the loop waits for fails, what it pulls are the numbers that it counts between, and it does not end. -/
structure Engine.Turn.Bears (t : Engine.Turn) (s : Strand) (first bound : Int) : Prop where
  lasts : ∀ sig, sig.Ended → ¬t.Resumes s sig
  running : t.engine.running = true
  unfailing : ∀ f err, ¬t.Resumes { s with frames := f :: s.frames } (.raise err)
  first : ∀ v, t.Tells s "from" v → Expr.toInteger v = .ok (.int first)
  bound : ∀ v, t.Tells s "to" v → Expr.toInteger v = .ok (.int bound)

section Counting

variable {s s' : Strand} {i j : Invocation} {first bound : Int} {calm calm' : Prop} {ports : List String} {e : Engine}
  {x : Strand × Parked}

theorem Counting.mono (h : Counting s i first bound calm ports x) (hcalm : calm' → calm) :
    Counting s i first bound calm' ports x := by
  cases h with
  | goes hsame hf hp hnode hkind hhalf hindex =>
    exact .goes hsame hf hp hnode hkind hhalf fun h => hindex (hcalm h)
  | waits hsame hbase hnode hkind hhalf hports hkeeps =>
    exact .waits hsame hbase hnode hkind hhalf hports fun h => hkeeps (hcalm h)
  | ended hsame hf hp hports => exact .ended hsame hf hp hports

theorem Counting.same (h : Counting s i first bound calm ports x) : s.Same x.1 := by
  cases h with
  | goes hsame | waits hsame | ended hsame => exact hsame

/-- A strand that is taken up. -/
theorem Counting.unpark {q : Parked} (h : Counting s i first bound calm ports (s', q)) (e : Engine) :
    Counting s i first bound calm ports (s', .turn (e.unpark q).1) := by
  cases h with
  | goes hsame hf hp hnode hkind hhalf hindex =>
    obtain rfl := hp
    exact .goes hsame hf rfl hnode hkind hhalf hindex
  | waits hsame hbase hnode hkind hhalf hports hkeeps =>
    refine .waits hsame hbase hnode hkind hhalf hports fun hcalm hdone => ?_
    obtain ⟨sc, hindex, hkeep⟩ := hkeeps hcalm hdone
    exact ⟨sc, hindex, hkeep.unpark e⟩
  | ended hsame hf hp hports =>
    obtain rfl := hp
    exact .ended hsame hf rfl hports

/-- The loop begins to wait. -/
theorem Counting.of_wait {w : Wait} {c : Except Raised w.Reply → Script} {index : Option Int} {q : Parked}
    (hsame : s.Same s') (hf : s'.frames = .behavior j w c :: s.frames) (hq : q.Abstains i.node)
    (hnode : j.node = i.node) (hkind : j.kind = i.kind) (hhalf : Halfway first bound ports index (.wait w c))
    (hindex : calm → s'.scope.ShowsIndex i.node index) :
    Counting s i first bound calm (ports ++ (Script.wait w c).followed?.toList) (s', q) := by
  refine .waits (x := (s', q)) hsame (hf ▸ List.suffix_rfl) hnode hkind hhalf rfl fun hcalm _ => ?_
  exact ⟨s'.scope, hindex hcalm, ⟨[], hf, List.forall_mem_nil _⟩, hq, .refl _⟩

/-- A turn of the loop itself. -/
theorem Counting.turn_goes {script : Script} {index : Option Int} (hk : i.kind.Counts) (hsame : s.Same s')
    (hf : s'.frames = s.frames) (hnode : j.node = i.node) (hkind : j.kind = i.kind)
    (hhalf : Halfway first bound ports index script) (hindex : calm → s'.scope.ShowsIndex i.node index) :
    ∃ x ∈ (e.turn s' (.call (.behave j script))).population,
      Counting s i first bound calm (ports ++ script.followed?.toList) x := by
  obtain ⟨b, hb, -, hcounting⟩ := Library.countingLoop_behavior
  have hbehavior : j.kind.behavior = some b := by rw [hkind, hk.behavior, hb]
  have hpush {w : Wait} {c : Except Raised w.Reply → Script} :
      Frame.behavior j w c :: s'.frames = .behavior j w c :: s.frames := by rw [hf]
  have hadvance {port : String} {c : Except Raised Unit → Script} {index : Option Int}
      (hport : (i.kind.execOutput port).isSome = true)
      (hhalf : Halfway first bound ports index (.wait (.advance port) c))
      (hindex : calm → s'.scope.ShowsIndex i.node index) :
      ∃ x ∈ (e.turn s' (.call (.behave j (.wait (.advance port) c)))).population,
        Counting s i first bound calm (ports ++ [port]) x := by
    rw [← hkind] at hport
    obtain ⟨q, hq⟩ := Option.isSome_iff_exists.mp hport
    have heq : e.turn s' (.call (.behave j (.wait (.advance port) c))) =
        e.nest s' (.behavior { j with advanced := j.advanced ++ [port] } (.advance port) c)
          (.walk (e.destinations j.node (some port))) := by
      show e.awaitFor s' j (.advance port) c = _
      simp only [Engine.awaitFor, hq]
    rw [heq]
    refine ⟨_, List.mem_cons_self, .of_wait (j := { j with advanced := j.advanced ++ [port] }) (w := .advance port)
      ⟨hsame.id, hsame.trigger⟩ ?_ trivial hnode hkind hhalf hindex⟩
    show Frame.behavior _ _ _ :: s'.frames = _
    rw [hf]
  -- one case for each place where the body of the loop can be cut; only two of them follow a port
  cases hhalf with
  | starting =>
    exact ⟨_, List.mem_cons_self, .of_wait (w := .pull "from") ⟨hsame.id, hsame.trigger⟩ hpush trivial hnode hkind
      .starting hindex⟩
  | bounding =>
    exact ⟨_, List.mem_cons_self, .of_wait (w := .pull "to") ⟨hsame.id, hsame.trigger⟩ hpush trivial hnode hkind
      .bounding hindex⟩
  | checking h =>
    exact ⟨_, List.mem_cons_self, .of_wait (w := .checkpoint) ⟨hsame.id, hsame.trigger⟩ hpush trivial hnode hkind
      (.checking h) hindex⟩
  | @publishing m h =>
    have hnext : Halfway first bound (.replicate m "loop" ++ []) (some (first + m))
        (Library.passing (first + m) bound) := by
      rw [List.append_nil]
      exact .passing h
    refine ⟨_, List.mem_cons_self, .goes ⟨hsame.id, hsame.trigger⟩ hf rfl hnode hkind hnext fun _ v hv => ?_⟩
    obtain rfl := Option.some.inj hv
    rw [← hnode]
    show ((s'.scope.publish j.node (.str "index") (.int (first + m))).outputsOf j.node).get? (.str "index") = _
    rw [Scope.outputsOf_publish, if_pos rfl, Dict.get?_set_self]
  | passing h => exact hadvance hk.loop (.passing h) hindex
  | @again m h =>
    have heq : e.turn s' (.call (.behave j (.again (.tuple [.int (first + m + 1), .int bound])))) =
        e.go s' (.call (.behave j (Library.counting (first + m + 1) bound))) := by
      show e.behave s' j (.again (.tuple [.int (first + m + 1), .int bound])) = _
      simp only [Engine.behave, hbehavior, hcounting]
    rw [heq]
    have hnext : Halfway first bound (.replicate (m + 1) "loop" ++ []) (lastIndex first (m + 1))
        (Library.counting (first + m + 1) bound) := by
      have hle : m + 1 ≤ (bound - first).toNat := by omega
      simpa [add_assoc] using Halfway.counting hle
    exact ⟨_, List.mem_cons_self, .goes ⟨hsame.id, hsame.trigger⟩ hf rfl hnode hkind hnext hindex⟩
  | ending => exact hadvance hk.done .ending hindex
  | finishing =>
    obtain ⟨e', he'⟩ : ∃ e' : Engine, e.turn s' (.call (.behave j (.finish .null))) =
        e'.go { s' with scope := { s'.scope with executed := s'.scope.executed + 1 } } (.back (.invoked .null j)) :=
      ⟨_, rfl⟩
    rw [he']
    exact ⟨_, List.mem_cons_self, .ended ⟨hsame.id, hsame.trigger⟩ hf rfl (List.append_nil _)⟩

/-- A turn of what the loop waits for. -/
theorem Counting.turn_within {lo : Nat → Dependency → Nat} {L : Ledger} {t : Engine.Turn} {sig : Signal} {w : Wait}
    {c : Except Raised w.Reply → Script} {before : List String} {index : Option Int} (hk : i.kind.Counts)
    (hst : Staffed t) (hL : Orderly lo L t) (hn : t.next = some (s', sig)) (hsame : s.Same s')
    (hbase : Frame.behavior j w c :: s.frames <:+ s'.frames) (hnode : j.node = i.node) (hkind : j.kind = i.kind)
    (hhalf : Halfway first bound before index (.wait w c))
    (hports : ports = before ++ (Script.wait w c).followed?.toList)
    (hkeeps : calm → "done" ∉ ports → ∃ sc : Scope, sc.ShowsIndex i.node index ∧
      Keeping i.node (.behavior j w c :: s.frames) sc (s', .turn sig))
    (hne : sig.Ended → s'.frames ≠ .behavior j w c :: s.frames)
    (hkept : calm → ∃ n, t.engine.nodeWithKind i.node = .ok (n, i.kind))
    (honce : calm → "done" ∉ ports → ∀ s'' j', (t.engine.turn s' sig).next = some (s'', .call (.invoke j')) →
      s''.scope.trigger = s'.scope.trigger → j'.node ≠ i.node) :
    ∃ x ∈ (t.engine.turn s' sig).population, Counting s i first bound calm ports x := by
  have hsits := (hL.placed _ (Engine.Turn.mem_population_of_next hn)).sits
  have hbelow : Frame.behavior j w c :: s.frames <:+ sig.below s'.frames := Signal.suffix_below hbase hne
  have hinside {fs : List Frame} (hfs : Frame.behavior j w c :: s.frames <:+ fs) : ¬∀ f ∈ fs, f.Outer :=
    fun hout => hout _ (hfs.subset List.mem_cons_self)
  obtain ⟨x, hx, hxid, htrigger, hsuffix, hfinds⟩ := hst.heir hL hn (hinside hbelow)
  have hxbase := hbelow.trans hsuffix
  refine ⟨x, hx, .waits ⟨hxid.trans hsame.id, htrigger.trans hsame.trigger⟩ hxbase hnode hkind hhalf hports
    fun hcalm hdone => ?_⟩
  obtain ⟨sc, hindex, hkeep⟩ := hkeeps hcalm hdone
  obtain ⟨m, hm⟩ := hkept hcalm
  have hdata : ∀ n k, t.engine.nodeWithKind i.node = .ok (n, k) → k.dataOnly = false := by
    intro n k hnk
    obtain ⟨-, rfl⟩ := Prod.mk.inj (Except.ok.inj (hm.symm.trans hnk))
    exact hk.dataOnly
  -- control flow does not come to the node
  have hquiet : ∀ rest n k b, sig = .call (.walk (i.node :: rest)) → t.engine.running = true →
      t.engine.nodeWithKind i.node = .ok (n, k) → k.behavior = some b → k.Quiet := by
    rintro rest n k b rfl hrun hnk hb
    have hwalk : (t.engine.turn s' (.call (.walk (i.node :: rest)))).next =
        some ({ s' with frames := .walk rest :: s'.frames },
          .call (.invoke { serial := n.serial, node := i.node, kind := k, mode := .exec })) := by
      show (t.engine.walk s' (i.node :: rest)).next = _
      simp only [Engine.walk, hrun, hnk, hb, Bool.not_true, Bool.false_eq_true, if_false]
      rfl
    exact (honce hcalm hdone _ _ hwalk rfl rfl).elim
  have hturn := turn_keeping hdata hquiet hsits hkeep hne (hinside hbase)
  exact ⟨sc, hindex, (hfinds _ hturn).resolve_left (hinside hxbase)⟩

/-- What a behaviour has pulled is told to it as such. -/
theorem Sits.pulled_of_pull {b : Book} {r : Result} {port : String} {c : Except Raised Value → Script}
    {fs : List Frame} (h : Sits b (s', .turn (.back r))) (hf : s'.frames = .behavior j (.pull port) c :: fs) :
    ∃ v ds, r = .pulled v ds := by
  obtain ⟨nodes, -, hfits⟩ := h.fits
  rw [hf] at hfits
  cases hfits with
  | pulled => exact ⟨_, _, rfl⟩
  | answers hs =>
    generalize b.running = as at hs
    cases hs with
    | outer hout => exact (hout _ List.mem_cons_self).elim
  | walked hs | woken hs =>
    generalize b.running = as at hs
    cases hs
  | invoked _ _ hs => cases hs

/-- A turn in which the loop goes on with what it has waited for. -/
theorem Counting.turn_resumed {b : Book} {r : Result} {w : Wait} {c : Except Raised w.Reply → Script}
    {before : List String} {index : Option Int} (hsits : Sits b (s', .turn (.back r))) (hsame : s.Same s')
    (hbase : s'.frames = .behavior j w c :: s.frames) (hnode : j.node = i.node) (hkind : j.kind = i.kind)
    (hhalf : Halfway first bound before index (.wait w c))
    (hports : ports = before ++ (Script.wait w c).followed?.toList)
    (hindex : calm → "done" ∉ ports → s'.scope.ShowsIndex i.node index) (hrunning : e.running = true)
    (hfirst : ∀ v ds, w = .pull "from" → r = .pulled v ds → Expr.toInteger v = .ok (.int first))
    (hbound : ∀ v ds, w = .pull "to" → r = .pulled v ds → Expr.toInteger v = .ok (.int bound)) :
    ∃ x ∈ (e.turn s' (.back r)).population, Counting s i first bound calm ports x := by
  -- whatever it waited for, the loop goes on with the answer in the same frames
  have hgoes (j' : Invocation) (a : w.Reply) {script : Script} {index : Option Int} (hnode : j'.node = i.node)
      (hkind : j'.kind = i.kind) (heq : e.resumeBehavior { s' with frames := s.frames } j w c r =
        e.go { s' with frames := s.frames } (.call (.behave j' (c (.ok a))))) (hscript : c (.ok a) = script)
      (hhalf : Halfway first bound ports index script) (hindex : calm → s'.scope.ShowsIndex i.node index) :
      ∃ x ∈ (e.turn s' (.back r)).population, Counting s i first bound calm ports x := by
    rw [Engine.turn_back hbase]
    show ∃ x ∈ (e.resumeBehavior { s' with frames := s.frames } j w c r).population, _
    rw [heq, hscript]
    exact ⟨_, List.mem_cons_self, .goes ⟨hsame.id, hsame.trigger⟩ rfl rfl hnode hkind hhalf hindex⟩
  have hdone (m : Nat) : "done" ∉ List.replicate m "loop" :=
    fun hmem => absurd (List.eq_of_mem_replicate hmem) (by decide)
  generalize hscript : Script.wait w c = script at hhalf hports
  -- a loop waits at five places; the three others do not wait
  cases hhalf with
  | starting =>
    cases hscript
    obtain ⟨v, ds, rfl⟩ := hsits.pulled_of_pull hbase
    obtain rfl := hports
    exact hgoes { j with dependencies := j.dependencies.merge ds } v hnode hkind rfl
      (Library.converting_int (hfirst v ds rfl rfl) Library.bounding) .bounding fun _ _ hv => by cases hv
  | bounding =>
    cases hscript
    obtain ⟨v, ds, rfl⟩ := hsits.pulled_of_pull hbase
    obtain rfl := hports
    have hzero : Halfway first bound (.replicate 0 "loop") (lastIndex first 0)
        (Library.counting (first + (0 : Nat)) bound) := Halfway.counting (Nat.zero_le _)
    have hhalf : Halfway first bound [] none (Library.counting first bound) := by simpa [lastIndex] using hzero
    exact hgoes { j with dependencies := j.dependencies.merge ds } v hnode hkind rfl
      (Library.converting_int (hbound v ds rfl rfl) (Library.counting first)) hhalf fun _ _ hv => by cases hv
  | @checking m h =>
    cases hscript
    have heq : ports = .replicate m "loop" := hports.trans (List.append_nil _)
    have hgo : Action.ofExcept (.ok e.running) (fun goes => if goes then Library.publishing (first + m) bound
        else Library.ending) = Library.publishing (first + m) bound := by rw [hrunning]; rfl
    exact hgoes j e.running hnode hkind rfl hgo (heq ▸ .publishing h) fun hcalm => hindex hcalm (heq ▸ hdone m)
  | @passing m h =>
    cases hscript
    have heq : ports = .replicate (m + 1) "loop" := by rw [hports, List.replicate_succ']; rfl
    exact hgoes j () hnode hkind rfl rfl (heq ▸ .again h) fun hcalm => hindex hcalm (heq ▸ hdone (m + 1))
  | ending =>
    cases hscript
    have hhalf : Halfway first bound ports none (.finish .null) := by
      rw [hports]
      exact .finishing
    exact hgoes j () hnode hkind rfl rfl hhalf fun _ _ hv => by cases hv
  | publishing | again | finishing => cases hscript

/-- A turn of the strand of a loop. -/
theorem Counting.turn {lo : Nat → Dependency → Nat} {L : Ledger} {t : Engine.Turn} {sig : Signal} (hk : i.kind.Counts)
    (hst : Staffed t) (hL : Orderly lo L t) (hn : t.next = some (s', sig)) (hbears : t.Bears s first bound)
    (hkept : calm → ∃ n, t.engine.nodeWithKind i.node = .ok (n, i.kind))
    (honce : calm → "done" ∉ ports ++ (t.follows? s).toList → ∀ s'' j',
      (t.engine.turn s' sig).next = some (s'', .call (.invoke j')) → s''.scope.trigger = s'.scope.trigger →
        j'.node ≠ i.node) (h : Counting s i first bound calm ports (s', .turn sig)) :
    ∃ x ∈ (t.engine.turn s' sig).population,
      Counting s i first bound calm (ports ++ (t.follows? s).toList) x := by
  cases h with
  | goes hsame hf hp hnode hkind hhalf hindex =>
    obtain rfl := Parked.turn.inj hp
    rw [Engine.Turn.follows?_behave hn hsame.id hf]
    exact turn_goes hk hsame hf hnode hkind hhalf hindex
  | @waits j w c before index hsame hbase hnode hkind hhalf hports hkeeps =>
    -- what is above the frames of the loop follows no output for it
    have hnone : t.follows? s = none := by
      refine Engine.Turn.follows?_of_ne hn fun _ => ?_
      have hle : s.frames.length + 1 ≤ s'.frames.length := hbase.length_le
      omega
    rw [hnone, Option.toList_none, List.append_nil] at honce ⊢
    by_cases hreturns : sig.Ended ∧ s'.frames = .behavior j w c :: s.frames
    · obtain ⟨hended, hf⟩ := hreturns
      cases sig with
      | call call => exact hended.elim
      | raise err => exact absurd ⟨s', hn, hsame.id, hf⟩ (hbears.unfailing (.behavior j w c) err)
      | back r =>
        refine turn_resumed (hL.placed _ (Engine.Turn.mem_population_of_next hn)).sits hsame hf hnode hkind hhalf hports
          (fun hcalm hdone => ?_) hbears.running (fun v ds hw hr => ?_) fun v ds hw hr => ?_
        · obtain ⟨sc, hshows, hkeep⟩ := hkeeps hcalm hdone
          intro v hv
          have hshown := hshows v hv
          rwa [Scope.shown, ← hkeep.scope.outputs] at hshown
        · subst hw hr
          exact hbears.first v ⟨j, c, ds, s', hn, hsame.id, hf⟩
        · subst hw hr
          exact hbears.bound v ⟨j, c, ds, s', hn, hsame.id, hf⟩
    · exact turn_within hk hst hL hn hsame hbase hnode hkind hhalf hports hkeeps
        (fun hended hf => hreturns ⟨hended, hf⟩) hkept honce
  | @ended j hsame hf hp hports =>
    obtain rfl := Parked.turn.inj hp
    exact absurd ⟨s', hn, hsame.id, hf⟩ (hbears.lasts (.back (.invoked .null j)) trivial)

end Counting

end Patchbay
