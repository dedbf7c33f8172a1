import Patchbay.Proofs.Births
import Patchbay.Proofs.Reporting

/-!
# The word of a trigger

What observers are told of one trigger is a word of a small grammar, however many other triggers have
turns meanwhile. The word begins with the start of the trigger and closes with its end. In between nodes
start and finish in the manner of brackets: the node that finishes is the one that has started last and
not finished, be it reached by control flow or run for a value. An error ends the word but for log lines
and the end of the trigger.

The open brackets of a word are the invocations that the strand of the trigger has in progress. That is
the invariant: a turn adds to the word as it adds to and takes from these invocations.

Contents:
* `Reading`, `reading`: reading a word, notice by notice.
* `Strand.opened`: the nodes of the invocations that a strand has in progress.
* `Proceeds`, `Fails`: a strand before and after an invocation has ended with an error.
* `Spelled`: a word that belongs to what a strand has in progress.

Results:
* `Proceeds.turn`, `Fails.turn`: how a turn continues a word.
* `spelled_run`: the word of a trigger belongs to its strand all along a run.
* `trigger_word`: the word of a trigger that has ended.
-/

namespace Patchbay

/-! ## Words -/

/-- How far a word has been read: inside the nodes that have started and not finished, the last one
first, or beyond an error. -/
inductive Reading where
  | inside (opened : List String)
  | failed
deriving DecidableEq

/-- Reads one more notice. Nothing is read that is out of place. -/
def Reading.next : Reading → Notice → Option Reading
  | .inside opened, .nodeStarted _ node _ _ => some (.inside (node :: opened))
  | .inside (last :: opened), .nodeFinished _ node _ _ =>
    if node = last then some (.inside opened) else none
  | .inside _, .nodeErrored _ _ _ _ => some .failed
  | r, .log _ _ _ _ => some r
  | _, _ => none

/-- Reads a word. -/
def reading (word : List Notice) : Option Reading := word.foldlM Reading.next (.inside [])

/-- Whether a trigger has started or ended. -/
def Notice.isBound : Notice → Bool
  | .triggerStarted _ _ _ => true
  | .triggerFinished _ _ _ _ _ => true
  | _ => false

/-- Whether a node has finished. -/
def Notice.isFinish : Notice → Bool
  | .nodeFinished _ _ _ _ => true
  | _ => false

theorem reading_append {word more : List Notice} {r : Reading} (h : reading word = some r) :
    reading (word ++ more) = more.foldlM Reading.next r := by
  rw [reading, List.foldlM_append, ← reading, h]
  rfl

theorem Reading.isBound_of_next {r r' : Reading} {m : Notice} (h : r.next m = some r') : m.isBound = false := by
  cases m with
  | triggerStarted | triggerFinished => cases r <;> simp [Reading.next] at h
  | _ => rfl

/-- Inside a word no trigger starts or ends. -/
theorem isBound_of_reading {word : List Notice} {r : Reading} (h : reading word = some r) :
    ∀ m ∈ word, m.isBound = false := by
  have hfold : ∀ (word : List Notice) (r₀ : Reading), word.foldlM Reading.next r₀ = some r →
      ∀ m ∈ word, m.isBound = false := by
    intro word
    induction word with
    | nil => simp
    | cons m rest ih =>
      intro r₀ h
      rw [List.foldlM_cons] at h
      obtain ⟨r₁, hnext, hrest⟩ := Option.bind_eq_some_iff.mp h
      exact List.forall_mem_cons.mpr ⟨Reading.isBound_of_next hnext, ih r₁ hrest⟩
  exact hfold word _ h

/-! ## Strands -/

/-- The node of an invocation in progress. -/
def Frame.opened : Frame → List String
  | .behavior i _ _ => [i.node]
  | _ => []

/-- The node of the invocation that is about to go on. -/
def Signal.opened : Signal → List String
  | .call (.behave i _) => [i.node]
  | _ => []

/-- The node of the invocation that goes on when its strand does. -/
def Parked.opened : Parked → List String
  | .turn sig => sig.opened
  | _ => []

/-- The nodes of the invocations that a strand has in progress, the last one first. -/
def Strand.opened (s : Strand) (q : Parked) : List String := q.opened ++ s.frames.flatMap Frame.opened

/-- What the word of a trigger begins with. -/
def Frame.heading (T : Nat) : Frame → List Notice
  | .trigger node origin => [.triggerStarted T node origin]
  | _ => []

/-- Whether the behaviour of an invocation hands errors on. -/
def Invocation.Relays (i : Invocation) : Prop :=
  ∀ b, i.kind.behavior = some b → ∀ state, (b state).Relays

/-- Whether an invocation in progress hands errors on. -/
def Frame.Relays : Frame → Prop
  | .behavior i w k => i.Relays ∧ (Script.wait w k).Relays
  | _ => True

/-- Whether an invocation that goes on hands errors on. -/
def Signal.Relays : Signal → Prop
  | .call (.invoke i) => i.Relays
  | .call (.behave i script) => i.Relays ∧ script.Relays
  | _ => True

/-- What a strand inside a trigger may wait for. -/
def Parked.Relays : Parked → Prop
  | .turn sig => sig.Relays
  | .sleep _ => True
  | _ => False

/-- A strand on which no invocation has ended with an error. -/
structure Proceeds (s : Strand) (q : Parked) : Prop where
  frames : ∀ f ∈ s.frames, f.Relays
  parked : q.Relays

/-- Whether an error may come to the first of some frames: it is no pause. -/
def Hears : List Frame → Prop
  | .behavior _ w _ :: _ => w.nests = true
  | _ => True

/-- Whether an error may be on its way after a word: observers have been told of it, and it ends invocations as it is
without their being told again; or they have been told of no error yet. -/
inductive Raised.Follows (err : Raised) : Reading → Prop
  | told {r : Reading} (hsilent : err.silent = true) (hpassed : err.passed = err) : Follows err r
  | untold (opened : List String) : Follows err (.inside opened)

/-- A strand on which an error is on its way with which an invocation has ended. -/
inductive Fails (err : Raised) : Strand → Parked → Prop
  | raises {s : Strand} (hf : ∀ f ∈ s.frames, f.Relays) (hh : Hears s.frames) :
      Fails err s (.turn (.raise err))
  | cleans {s : Strand} {i : Invocation} {script : Script} (hf : ∀ f ∈ s.frames, f.Relays)
      (hs : script.Passes err) : Fails err s (.turn (.call (.behave i script)))
  | pauses {id : Nat} {sc : Scope} {i : Invocation} {w : Wait} {k : Except Raised w.Reply → Script}
      {fs : List Frame} {q : Parked} (hf : ∀ f ∈ fs, f.Relays) (hw : w.nests = false)
      (hk : ∀ r, (k r).Passes err) (hq : q.Pauses) : Fails err ⟨id, sc, .behavior i w k :: fs⟩ q

/-- How a strand stands to a word that was read so far. -/
def Reads (r : Option Reading) (s : Strand) (q : Parked) : Prop :=
  Proceeds s q ∧ r = some (.inside (s.opened q)) ∨
    ∃ err r', err.Follows r' ∧ Fails err s q ∧ r = some r'

/-- Whether the word of a trigger belongs to what a strand has in progress. -/
def Spelled (T : Nat) (word : List Notice) (x : Strand × Parked) : Prop :=
  ∃ body, word = x.1.frames.flatMap (Frame.heading T) ++ body ∧
    x.1.scope.executed = body.countP Notice.isFinish ∧ Reads (reading body) x.1 x.2

/-- How a turn that tells something continues a word: `r` has been read before. -/
structure Continues (s : Strand) (told : List Notice) (r : Reading) (x : Strand × Parked) : Prop where
  heading : ∀ T, x.1.frames.flatMap (Frame.heading T) = s.frames.flatMap (Frame.heading T)
  executed : x.1.scope.executed = s.scope.executed + told.countP Notice.isFinish
  reads : Reads (told.foldlM Reading.next r) x.1 x.2

/-- The word after a turn. -/
theorem Continues.spelled {s : Strand} {told body : List Notice} {r : Reading} {x : Strand × Parked}
    (h : Continues s told r x) {T : Nat} (hcount : s.scope.executed = body.countP Notice.isFinish)
    (hr : reading body = some r) :
    Spelled T (s.frames.flatMap (Frame.heading T) ++ body ++ told) x := by
  refine ⟨body ++ told, ?_, ?_, ?_⟩
  · rw [h.heading T, List.append_assoc]
  · rw [h.executed, hcount, List.countP_append]
  · rw [reading_append hr]
    exact h.reads

/-! ## Turns before an error -/

/-- Behaviours of nodes hand errors on. -/
theorem Program.Relays.nodeWithKind {e : Engine} (h : e.program.Relays) {id : String} {n : Node} {k : Kind Behavior}
    (hn : e.nodeWithKind id = .ok (n, k)) {i : Invocation} (hi : i.kind = k) : i.Relays := by
  have hold : e.Holds e.program e.store := ⟨rfl, rfl⟩
  intro b hb state
  exact h i.kind (hi ▸ Program.mem_kinds (hold.nodeWithKind_ok hn)) b hb state

section Proceeding

variable {e e' : Engine} {s s' : Strand} {told : List Notice} {r : Reading}

/-- The word goes on inside the invocations that the strand has in progress. -/
theorem Continues.of_proceeds {q : Parked} (hp : Proceeds s' q)
    (hr : told.foldlM Reading.next r = some (.inside (s'.opened q)))
    (hheading : ∀ T, s'.frames.flatMap (Frame.heading T) = s.frames.flatMap (Frame.heading T))
    (hexecuted : s'.scope.executed = s.scope.executed + told.countP Notice.isFinish) :
    Continues s told r (s', q) :=
  ⟨hheading, hexecuted, .inl ⟨hp, hr⟩⟩

/-- The word goes on after an error. -/
theorem Continues.of_fails {q : Parked} {err : Raised} {r' : Reading} (herr : err.Follows r')
    (hf : Fails err s' q) (hr : told.foldlM Reading.next r = some r')
    (hheading : ∀ T, s'.frames.flatMap (Frame.heading T) = s.frames.flatMap (Frame.heading T))
    (hexecuted : s'.scope.executed = s.scope.executed + told.countP Notice.isFinish) :
    Continues s told r (s', q) :=
  ⟨hheading, hexecuted, .inr ⟨err, r', herr, hf, hr⟩⟩

theorem walk_continues (hh : e.program.Relays) (hf : ∀ f ∈ s.frames, f.Relays) (agenda : List String) :
    e.Stays (Continues s (e.told s (.call (.walk agenda))) (.inside (s.opened (.turn (.call (.walk agenda))))))
      (e.walk s agenda) := by
  have hsame : e.Welcomes e := .of_eq rfl
  rw [Engine.told_of_raising?_none rfl]
  have hback : Proceeds s (.turn (.back .nothing)) := ⟨hf, trivial⟩
  have hcases := e.walk_cases s agenda
  generalize e.walk s agenda = t at hcases ⊢
  cases hcases with
  | done => exact .go hsame (.inr (.of_proceeds hback rfl (fun _ => rfl) rfl))
  | stopped hrun =>
    simp only [Engine.progress, hrun, Bool.false_eq_true, if_false]
    exact .go hsame (.inr (.of_proceeds hback rfl (fun _ => rfl) rfl))
  | @unknown _ _ err hrun hn =>
    have hp : Proceeds s (.turn (.raise err)) := ⟨hf, trivial⟩
    simp only [Engine.progress, hrun, hn, if_true]
    exact .go hsame (.inr (.of_proceeds hp rfl (fun _ => rfl) rfl))
  | @invokes node rest n k _ hrun hn hb =>
    have hframes : ∀ f ∈ Frame.walk rest :: s.frames, f.Relays := List.forall_mem_cons.mpr ⟨trivial, hf⟩
    have hi : Invocation.Relays { serial := n.serial, node := node, kind := k, mode := .exec } :=
      hh.nodeWithKind hn rfl
    simp only [Engine.progress, hrun, hn, hb, if_true, Option.isNone_some, Bool.false_eq_true, if_false]
    exact .go hsame (.inr (.of_proceeds ⟨hframes, hi⟩ rfl (fun _ => rfl) rfl))
  | passes hrun hn hb =>
    simp only [Engine.progress, hrun, hn, hb, if_true, Option.isNone_none]
    refine .go (.of_eq rfl) (.inr (.of_proceeds ?_ ?_ (fun _ => rfl) rfl))
    · exact ⟨hf, trivial⟩
    · simp [Reading.next, Strand.opened, Parked.opened, Signal.opened]

/-- What a turn tells that ends an invocation with an error: the error, unless it was told before. -/
theorem told_of_raising {sig : Signal} {i : Invocation} {err : Raised} (hraise : s.raising? sig = some (i, err)) :
    e.told s sig = if err.silent then e.progress s sig else e.progress s sig ++
      [.nodeErrored s.scope.trigger i.node (err.atInvocation s.scope.trigger i).family.name
        (err.atInvocation s.scope.trigger i).message] := by
  cases herr : err.silent <;> simp [Engine.told, Strand.reports?, hraise, herr]

/-- An invocation ends with an error. -/
theorem failInvocation_continues {sig : Signal} {i : Invocation} {err : Raised} {opened : List String}
    (hw : e.Welcomes e') (hraise : s.raising? sig = some (i, err)) (hs : s'.scope = s.scope)
    (hheading : ∀ T, s'.frames.flatMap (Frame.heading T) = s.frames.flatMap (Frame.heading T))
    (hf : ∀ f ∈ s'.frames, f.Relays) (hh : Hears s'.frames)
    (hread : (e.progress s sig).foldlM Reading.next r = some (.inside opened))
    (hcount : (e.progress s sig).countP Notice.isFinish = 0) :
    e.Stays (Continues s (e.told s sig) r) (e'.failInvocation s' i err) := by
  have hexecuted : s'.scope.executed = s.scope.executed := congrArg Scope.executed hs
  rw [Engine.failInvocation_eq, told_of_raising hraise]
  cases herr : err.silent with
  | true =>
    -- observers are told nothing, and the word stays as it is
    simp only [if_true]
    exact .go hw (.inr (.of_fails (.untold opened) (.raises hf hh) hread hheading
      (by rw [hcount, hexecuted, Nat.add_zero])))
  | false =>
    simp only [Bool.false_eq_true, if_false]
    have hfailed : (e.progress s sig ++
        [Notice.nodeErrored s.scope.trigger i.node (err.atInvocation s.scope.trigger i).family.name
          (err.atInvocation s.scope.trigger i).message]).foldlM Reading.next r = some .failed := by
      rw [List.foldlM_append, hread]
      rfl
    refine .go hw (.inr (.of_fails (.told rfl rfl) (.raises hf hh) hfailed hheading ?_))
    rw [List.countP_append, hcount, hexecuted]
    rfl

theorem invoke_continues {i : Invocation} (hi : i.Relays) (hf : ∀ f ∈ s.frames, f.Relays)
    (hh : Hears s.frames) :
    e.Stays (Continues s (e.told s (.call (.invoke i))) (.inside (s.opened (.turn (.call (.invoke i))))))
      (e.invoke s i) := by
  unfold Engine.invoke
  cases hb : i.kind.behavior with
  | some b =>
    have hr : s.raising? (.call (.invoke i)) = none := by simp [Strand.raising?, hb]
    have hp : Proceeds s (.turn (.call (.behave i (b .null)))) := ⟨hf, hi, hi b hb .null⟩
    rw [Engine.told_of_raising?_none hr]
    exact .go (.of_eq rfl) (.inr (.of_proceeds hp rfl (fun _ => rfl) rfl))
  | none =>
    have hr : s.raising? (.call (.invoke i)) = some (i, .fault .type) := by simp [Strand.raising?, hb]
    exact failInvocation_continues (.of_eq rfl) hr rfl (fun _ => rfl) hf hh rfl rfl

theorem awaitFor_continues {i : Invocation} (hi : i.Relays) {w : Wait} {k : Except Raised w.Reply → Script}
    (hs : (Script.wait w k).Relays) (hf : ∀ f ∈ s.frames, f.Relays) :
    e.Stays (Continues s [] (.inside (i.node :: s.frames.flatMap Frame.opened))) (e.awaitFor s i w k) := by
  have hsame : e.Welcomes e := .of_eq rfl
  have hframes : ∀ {j : Invocation}, j.Relays → ∀ f ∈ Frame.behavior j w k :: s.frames, f.Relays :=
    fun hj => List.forall_mem_cons.mpr ⟨⟨hj, hs⟩, hf⟩
  cases w with
  | pull port =>
    have hp : Proceeds { s with frames := .behavior i (.pull port) k :: s.frames }
        (.turn (.call (.input i.node port))) := ⟨hframes hi, trivial⟩
    exact .go hsame (.inr (.of_proceeds hp rfl (fun _ => rfl) rfl))
  | advance port =>
    simp only [Engine.awaitFor]
    split
    · have hp : Proceeds s (.turn (.call (.behave i
          (k (.error (.cause (.kindHasNoExecOutput i.kind.id port))))))) := ⟨hf, hi, hs.of_reply _⟩
      exact .go hsame (.inr (.of_proceeds hp rfl (fun _ => rfl) rfl))
    · have hj : Invocation.Relays { i with advanced := i.advanced ++ [port] } := hi
      refine .go hsame (.inr (.of_proceeds ?_ rfl (fun _ => rfl) rfl))
      exact ⟨hframes hj, trivial⟩
  | checkpoint =>
    refine .park (.of_eq rfl) (.inr (.of_proceeds ?_ rfl (fun _ => rfl) rfl))
    exact ⟨hframes hi, trivial⟩
  | sleep seconds =>
    simp only [Engine.awaitFor]
    split
    · next f _ =>
      have hp : Proceeds s (.turn (.call (.behave i (k (.error (.fault f)))))) := ⟨hf, hi, hs.of_reply _⟩
      exact .go hsame (.inr (.of_proceeds hp rfl (fun _ => rfl) rfl))
    · refine .park (.of_eq rfl) (.inr (.of_proceeds ?_ rfl (fun _ => rfl) rfl))
      exact ⟨hframes hi, trivial⟩

/-- A question of a behaviour adds at most a log line to a word. -/
theorem foldlM_told_ask (i : Invocation) (q : Query) (k : Except Raised q.Reply → Script) :
    (e.told s (.call (.behave i (.ask q k)))).foldlM Reading.next r = some r ∧
      (e.told s (.call (.behave i (.ask q k)))).countP Notice.isFinish = 0 := by
  rw [Engine.told_of_raising?_none rfl]
  cases q with
  | log level message => cases r <;> exact ⟨rfl, rfl⟩
  | _ => exact ⟨rfl, rfl⟩

theorem behave_continues {i : Invocation} (hi : i.Relays) {script : Script} (hs : script.Relays)
    (hf : ∀ f ∈ s.frames, f.Relays) (hh : Hears s.frames) :
    e.Stays (Continues s (e.told s (.call (.behave i script)))
      (.inside (s.opened (.turn (.call (.behave i script)))))) (e.behave s i script) := by
  have hsame : e.Welcomes e := .of_eq rfl
  -- a failure and a start over without a behaviour raise; all else goes on inside
  cases hs with
  | finish v =>
    rw [Engine.told_of_raising?_none rfl]
    refine .go (.of_eq ?_) (.inr (.of_proceeds ?_ ?_ (fun _ => rfl) rfl))
    · dsimp only
      split <;> rfl
    · exact ⟨hf, trivial⟩
    · simp [Engine.progress, Reading.next, Strand.opened, Parked.opened, Signal.opened]
  | fail err => exact failInvocation_continues hsame rfl rfl (fun _ => rfl) hf hh rfl rfl
  | again state =>
    unfold Engine.behave
    cases hb : i.kind.behavior with
    | some b =>
      have hr : s.raising? (.call (.behave i (.again state))) = none := by simp [Strand.raising?, hb]
      have hp : Proceeds s (.turn (.call (.behave i (b state)))) := ⟨hf, hi, hi b hb state⟩
      rw [Engine.told_of_raising?_none hr]
      exact .go hsame (.inr (.of_proceeds hp rfl (fun _ => rfl) rfl))
    | none =>
      have hr : s.raising? (.call (.behave i (.again state))) = some (i, .fault .type) := by
        simp [Strand.raising?, hb]
      exact failInvocation_continues hsame hr rfl (fun _ => rfl) hf hh rfl rfl
  | @ask q k hk =>
    obtain ⟨hread, hcount⟩ := foldlM_told_ask (e := e) (s := s) (r := .inside (s.opened (.turn (.call (.behave i
      (.ask q k)))))) i q k
    refine .go (e.welcomes_perform i s.scope q) (.inr (.of_proceeds ?_ ?_ (fun _ => rfl) ?_))
    · have hj : (e.perform i s.scope q).invocation.Relays := by
        rw [Invocation.Relays, perform_kind]
        exact hi
      exact ⟨hf, hj, hk _⟩
    · rw [hread]
      simp only [Strand.opened, Parked.opened, Signal.opened, perform_node]
    · rw [hcount]
      exact perform_executed e i s.scope q
  | @edit c k hk =>
    rw [Engine.told_of_raising?_none rfl]
    refine .go (Engine.Tended.command e c).strands (.inr (.of_proceeds ?_ rfl (fun _ => rfl) rfl))
    exact ⟨hf, hi, hk _⟩
  | pause hw hk =>
    rw [Engine.told_of_raising?_none rfl]
    exact awaitFor_continues hi (.pause hw hk) hf
  | nest hw hok herr =>
    rw [Engine.told_of_raising?_none rfl]
    exact awaitFor_continues hi (.nest hw hok herr) hf

/-- A turn that comes to a value or to an error tells nothing. -/
theorem Continues.of_settled {sig : Signal} {opened : List String} (hf : ∀ f ∈ s'.frames, f.Relays)
    (hsig : sig.Relays ∧ sig.opened = []) (hopened : s'.frames.flatMap Frame.opened = opened)
    (hheading : ∀ T, s'.frames.flatMap (Frame.heading T) = s.frames.flatMap (Frame.heading T))
    (hexecuted : s'.scope.executed = s.scope.executed) :
    Continues s [] (.inside opened) (s', .turn sig) := by
  refine .of_proceeds ⟨hf, hsig.1⟩ ?_ hheading hexecuted
  rw [← hopened, Strand.opened, Parked.opened, hsig.2]
  rfl

theorem relays_outputResult (sc : Scope) (node port : String) (ds : Dependencies) :
    (Engine.outputResult sc node port ds).Relays ∧ (Engine.outputResult sc node port ds).opened = [] := by
  unfold Engine.outputResult
  split
  · exact ⟨trivial, rfl⟩
  · exact ⟨trivial, rfl⟩

theorem relays_literalResult (port : Port) (v : Value) :
    (Engine.literalResult port v).Relays ∧ (Engine.literalResult port v).opened = [] := by
  unfold Engine.literalResult
  split
  · exact ⟨trivial, rfl⟩
  · exact ⟨trivial, rfl⟩

theorem pullInput_continues (hf : ∀ f ∈ s.frames, f.Relays) (node port : String) :
    e.Stays (Continues s [] (.inside (s.frames.flatMap Frame.opened))) (e.pullInput s node port) := by
  have hgo : ∀ {sig : Signal}, sig.Relays ∧ sig.opened = [] →
      e.Stays (Continues s [] (.inside (s.frames.flatMap Frame.opened))) (e.go s sig) :=
    fun hsig => .go (.of_eq rfl) (.inr (.of_settled hf hsig rfl (fun _ => rfl) rfl))
  have hcases := e.pullInput_cases s node port
  generalize e.pullInput s node port = t at hcases ⊢
  cases hcases with
  | literal => exact hgo (relays_literalResult _ _)
  | _ => exact hgo ⟨trivial, rfl⟩

theorem pullOutput_continues (hh : e.program.Relays) (hf : ∀ f ∈ s.frames, f.Relays) (node port : String) :
    e.Stays (Continues s [] (.inside (s.frames.flatMap Frame.opened))) (e.pullOutput s node port) := by
  have hgo : ∀ {sig : Signal}, sig.Relays ∧ sig.opened = [] →
      e.Stays (Continues s [] (.inside (s.frames.flatMap Frame.opened))) (e.go s sig) :=
    fun hsig => .go (.of_eq rfl) (.inr (.of_settled hf hsig rfl (fun _ => rfl) rfl))
  have hcases := e.pullOutput_cases s node port
  generalize e.pullOutput s node port = t at hcases ⊢
  cases hcases with
  | current => exact hgo (relays_outputResult _ _ _ _)
  | @runs n k hn =>
    have hi : Invocation.Relays { serial := n.serial, node := n.id, kind := k, mode := .pull } :=
      hh.nodeWithKind hn rfl
    have hframes : ∀ f ∈ Frame.output n.id port n.serial :: s.frames, f.Relays :=
      List.forall_mem_cons.mpr ⟨trivial, hf⟩
    have hcases := e.runForOutput_cases s n k port
    generalize e.runForOutput s n k port = t at hcases ⊢
    cases hcases with
    | hops =>
      refine .park (.of_eq rfl) (.inr (.of_proceeds ?_ rfl (fun _ => rfl) rfl))
      exact ⟨List.forall_mem_cons.mpr ⟨trivial, hframes⟩, hi⟩
    | nests =>
      refine .go (.of_eq rfl) (.inr (.of_proceeds ?_ rfl (fun _ => rfl) rfl))
      exact ⟨hframes, hi⟩
  | _ => exact hgo ⟨trivial, rfl⟩

theorem executed_publishAll (node : String) (os : Dict) (sc : Scope) :
    (os.foldl (fun sc x => sc.publish node x.1 x.2) sc).executed = sc.executed := by
  induction os generalizing sc with
  | nil => rfl
  | cons x rest ih => exact ih _

/-- The result of an invocation that control flow had reached. -/
theorem continueFrom_continues {id : Nat} {sc : Scope} {rest : List String} {frames : List Frame} {i : Invocation}
    {v : Value} (hf : ∀ f ∈ frames, f.Relays) (hh : Hears frames) :
    e.Stays (Continues ⟨id, sc, .walk rest :: frames⟩
        (e.told ⟨id, sc, .walk rest :: frames⟩ (.back (.invoked v i))) (.inside (frames.flatMap Frame.opened)))
      (e.continueFrom ⟨id, sc, frames⟩ i v rest) := by
  have hgo : ∀ {sc' : Scope} {agenda : List String}, sc'.executed = sc.executed →
      e.Stays (Continues ⟨id, sc, .walk rest :: frames⟩ [] (.inside (frames.flatMap Frame.opened)))
        (e.go ⟨id, sc', frames⟩ (.call (.walk agenda))) := by
    intro sc' agenda hsc
    have hsig : (Signal.call (.walk agenda)).Relays ∧ (Signal.call (.walk agenda)).opened = [] := ⟨trivial, rfl⟩
    exact .go (.of_eq rfl) (.inr (.of_settled hf hsig rfl (fun _ => rfl) hsc))
  unfold Engine.continueFrom
  cases v with
  | str port =>
    cases hport : i.kind.execOutput port with
    | some q =>
      rw [Engine.told_of_raising?_none (Strand.raising?_exit hport)]
      simp only [hport]
      exact hgo rfl
    | none =>
      simp only [hport]
      exact failInvocation_continues (.of_eq rfl) (Strand.raising?_astray hport) rfl (fun _ => rfl) hf hh rfl rfl
  | dict es =>
    rw [Engine.told_of_raising?_none rfl]
    exact hgo (executed_publishAll i.node es sc)
  | _ =>
    rw [Engine.told_of_raising?_none rfl]
    exact hgo rfl

theorem resumeBehavior_continues {id : Nat} {sc : Scope} {frames : List Frame} {i : Invocation} (hi : i.Relays)
    {w : Wait} {k : Except Raised w.Reply → Script} (hk : (Script.wait w k).Relays)
    (hf : ∀ f ∈ frames, f.Relays) (x : Result) :
    e.Stays (Continues ⟨id, sc, .behavior i w k :: frames⟩ [] (.inside (i.node :: frames.flatMap Frame.opened)))
      (e.resumeBehavior ⟨id, sc, frames⟩ i w k x) := by
  have hgo : ∀ {j : Invocation} (a : w.Reply), j.Relays → j.node = i.node →
      e.Stays (Continues ⟨id, sc, .behavior i w k :: frames⟩ [] (.inside (i.node :: frames.flatMap Frame.opened)))
        (e.go ⟨id, sc, frames⟩ (.call (.behave j (k (.ok a))))) := by
    intro j a hj hnode
    have hp : Proceeds ⟨id, sc, frames⟩ (.turn (.call (.behave j (k (.ok a))))) := ⟨hf, hj, hk.of_reply _⟩
    refine .go (.of_eq rfl) (.inr (.of_proceeds hp ?_ (fun _ => rfl) rfl))
    rw [← hnode]
    rfl
  unfold Engine.resumeBehavior
  split
  · next v ds =>
    have hj : Invocation.Relays { i with dependencies := i.dependencies.merge ds } := hi
    exact hgo _ hj rfl
  all_goals exact hgo _ hi rfl

theorem Stacked.hears {l : Level} {fs : List Frame} {nodes : List String} {as : List Account}
    (h : Stacked l fs nodes as) (hl : l ≠ .pause) : Hears fs := by
  cases h with
  | outer hout =>
    cases fs with
    | nil => trivial
    | cons f fs =>
      have hf : f.Outer := hout f List.mem_cons_self
      cases f <;> first | exact hf.elim | trivial
  | pull | advance => rfl
  | checkpoint | sleep => exact absurd rfl hl
  | _ => trivial

/-- What comes back to a strand inside a trigger, before any invocation has ended with an error. -/
theorem back_continues {id : Nat} {sc : Scope} {f : Frame} {frames : List Frame} {x : Result} {b : Book}
    (hsits : Sits b (⟨id, sc, f :: frames⟩, .turn (.back x))) (hf : ∀ g ∈ f :: frames, g.Relays)
    (hinside : ¬∀ g ∈ f :: frames, g.Outer) :
    e.Stays (Continues ⟨id, sc, f :: frames⟩ (e.told ⟨id, sc, f :: frames⟩ (.back x))
      (.inside (Strand.opened ⟨id, sc, f :: frames⟩ (.turn (.back x))))) (e.back ⟨id, sc, frames⟩ f x) := by
  have hsame : e.Welcomes e := .of_eq rfl
  obtain ⟨nodes, -, hfits⟩ := hsits.fits
  obtain ⟨hfirst, hrest⟩ := List.forall_mem_cons.mp hf
  cases hfits with
  | answers hs =>
    generalize b.running = as at hs
    cases hs with
    | outer hout => exact absurd hout hinside
  | walked hs =>
    generalize b.running = as at hs
    cases hs with
    | trigger hout => exact .go (.of_eq rfl) (.inl hout)
    | advance _ _ => exact resumeBehavior_continues hfirst.1 hfirst.2 hrest x
  | invoked _ _ hs =>
    cases hs with
    | walk hs => exact continueFrom_continues hrest (hs.hears nofun)
    | output _ =>
      exact .go (.of_eq rfl) (.inr (.of_settled hrest (relays_outputResult _ _ _ _) rfl (fun _ => rfl) rfl))
    | hop _ =>
      refine .park (.of_eq rfl) (.inr (.of_proceeds ?_ rfl (fun _ => rfl) rfl))
      exact ⟨hrest, trivial⟩
  | pulled hs _ =>
    generalize b.running = as at hs
    cases hs with
    | value hout => exact .go hsame (.inl hout)
    | pull _ _ => exact resumeBehavior_continues hfirst.1 hfirst.2 hrest _
  | woken hs =>
    generalize b.running = as at hs
    cases hs with
    | checkpoint _ _ => exact resumeBehavior_continues hfirst.1 hfirst.2 hrest x
    | sleep _ _ => exact resumeBehavior_continues hfirst.1 hfirst.2 hrest x

/-- An error comes up a strand inside a trigger before any invocation has ended with it. -/
theorem raise_continues {id : Nat} {sc : Scope} {f : Frame} {frames : List Frame} {err : Raised} {b : Book}
    (hsits : Sits b (⟨id, sc, f :: frames⟩, .turn (.raise err))) (hf : ∀ g ∈ f :: frames, g.Relays)
    (hinside : ¬∀ g ∈ f :: frames, g.Outer) :
    e.Stays (Continues ⟨id, sc, f :: frames⟩ (e.told ⟨id, sc, f :: frames⟩ (.raise err))
      (.inside (Strand.opened ⟨id, sc, f :: frames⟩ (.turn (.raise err))))) (e.raise ⟨id, sc, frames⟩ f err) := by
  have hsame : e.Welcomes e := .of_eq rfl
  obtain ⟨nodes, -, hfits⟩ := hsits.fits
  obtain ⟨hfirst, hrest⟩ := List.forall_mem_cons.mp hf
  have hraised : ∀ {sc' : Scope} {fs : List Frame}, (∀ g ∈ fs, g.Relays) →
      Proceeds ⟨id, sc', fs⟩ (.turn (.raise err)) := fun hfs => ⟨hfs, trivial⟩
  have hbehaves : ∀ {i : Invocation} {w : Wait} {k : Except Raised w.Reply → Script},
      Frame.Relays (.behavior i w k) →
      Proceeds ⟨id, sc, frames⟩ (.turn (.call (.behave i (k (.error err))))) :=
    fun hb => ⟨hrest, hb.1, hb.2.of_reply _⟩
  cases hfits with
  | raised hs =>
    generalize b.running = as at hs
    cases hs with
    | outer hout => exact absurd hout hinside
    | trigger hout =>
      cases err with
      | failure f => exact .go (.of_eq rfl) (.inl hout)
      | fault f => exact .go hsame (.inl hout)
      | mute f => exact .go hsame (.inl hout)
    | value hout => exact .go hsame (.inl hout)
    | pull _ _ => exact .go hsame (.inr (.of_proceeds (hbehaves hfirst) rfl (fun _ => rfl) rfl))
    | advance _ _ => exact .go hsame (.inr (.of_proceeds (hbehaves hfirst) rfl (fun _ => rfl) rfl))
    | checkpoint _ _ => exact .go hsame (.inr (.of_proceeds (hbehaves hfirst) rfl (fun _ => rfl) rfl))
    | sleep _ _ => exact .go hsame (.inr (.of_proceeds (hbehaves hfirst) rfl (fun _ => rfl) rfl))
    | walk _ => exact .go hsame (.inr (.of_proceeds (hraised hrest) rfl (fun _ => rfl) rfl))
    | output _ => exact .go hsame (.inr (.of_proceeds (hraised hrest) rfl (fun _ => rfl) rfl))
    | hop _ => exact .park (.of_eq rfl) (.inr (.of_proceeds (hraised hrest) rfl (fun _ => rfl) rfl))

/-- A turn of a strand on which no invocation has ended with an error. -/
theorem Proceeds.turn {b : Book} {sig : Signal} (hsits : Sits b (s, .turn sig)) (hh : e.program.Relays)
    (h : Proceeds s (.turn sig)) (hinside : ¬∀ f ∈ s.frames, f.Outer) :
    e.Stays (Continues s (e.told s sig) (.inside (s.opened (.turn sig)))) (e.turn s sig) := by
  obtain ⟨id, sc, frames⟩ := s
  cases sig with
  | call c =>
    obtain ⟨nodes, -, hfits⟩ := hsits.fits
    cases hfits with
    | begins _ hs =>
      generalize b.running = as at hs
      cases hs with
      | outer hout => exact absurd hout hinside
    | walks _ => exact walk_continues hh h.frames _
    | invokes _ _ hs => exact invoke_continues h.parked h.frames (hs.hears nofun)
    | behaves _ _ hs => exact behave_continues h.parked.1 h.parked.2 h.frames (hs.hears nofun)
    | input _ => exact pullInput_continues h.frames _ _
    | output _ => exact pullOutput_continues hh h.frames _ _
  | back x =>
    cases frames with
    | nil => exact (hinside (by simp)).elim
    | cons f frames => exact back_continues hsits h.frames hinside
  | raise err =>
    cases frames with
    | nil => exact (hinside (by simp)).elim
    | cons f frames => exact raise_continues hsits h.frames hinside

end Proceeding

/-! ## Turns after an error -/

section Failing

variable {e e' : Engine} {s : Strand} {err : Raised} {r : Reading}

/-- A behaviour that ends with an error does some cleaning up. -/
theorem cleanUp_continues (herr : err.Follows r) {i : Invocation} {script : Script} (hs : script.Passes err)
    (hf : ∀ f ∈ s.frames, f.Relays) (hh : Hears s.frames) :
    e.Stays (Continues s (e.told s (.call (.behave i script))) r) (e.behave s i script) := by
  have hsame : e.Welcomes e := .of_eq rfl
  cases hs with
  | fail =>
    show e.Stays _ (e.failInvocation s i err)
    cases herr with
    | untold opened => exact failInvocation_continues hsame rfl rfl (fun _ => rfl) hf hh rfl rfl
    | told hsilent hpassed =>
      have htold : e.told s (.call (.behave i (.fail err))) = [] := by
        simp [Engine.told, Engine.progress, Strand.reports?, Strand.raising?, hsilent]
      rw [htold, Engine.failInvocation_eq, hsilent, hpassed]
      exact .go hsame (.inr (.of_fails (.told hsilent hpassed) (.raises hf hh) rfl (fun _ => rfl) rfl))
  | @ask q k hk =>
    obtain ⟨hread, hcount⟩ := foldlM_told_ask (e := e) (s := s) (r := r) i q k
    refine .go (e.welcomes_perform i s.scope q) (.inr (.of_fails herr (.cleans hf (hk _)) hread (fun _ => rfl) ?_))
    rw [hcount]
    exact perform_executed e i s.scope q
  | @edit c k hk =>
    rw [Engine.told_of_raising?_none rfl]
    exact .go (Engine.Tended.command e c).strands
      (.inr (.of_fails herr (.cleans hf (hk _)) rfl (fun _ => rfl) rfl))
  | @pause w k hw hk =>
    rw [Engine.told_of_raising?_none rfl]
    cases w with
    | checkpoint =>
      exact .park (.of_eq rfl) (.inr (.of_fails herr (.pauses hf rfl hk trivial) rfl (fun _ => rfl) rfl))
    | sleep seconds =>
      show e.Stays _ (e.awaitFor s i (.sleep seconds) k)
      simp only [Engine.awaitFor]
      split
      · exact .go hsame (.inr (.of_fails herr (.cleans hf (hk _)) rfl (fun _ => rfl) rfl))
      · exact .park (.of_eq rfl) (.inr (.of_fails herr (.pauses hf rfl hk trivial) rfl (fun _ => rfl) rfl))
    | _ => cases hw

/-- An error comes up a strand. -/
theorem rethrow_continues {id : Nat} {sc : Scope} {f : Frame} {frames : List Frame} {b : Book}
    (hsits : Sits b (⟨id, sc, f :: frames⟩, .turn (.raise err))) (herr : err.Follows r)
    (hf : ∀ g ∈ f :: frames, g.Relays) (hh : Hears (f :: frames)) (hinside : ¬∀ g ∈ f :: frames, g.Outer) :
    e.Stays (Continues ⟨id, sc, f :: frames⟩ (e.told ⟨id, sc, f :: frames⟩ (.raise err)) r)
      (e.raise ⟨id, sc, frames⟩ f err) := by
  have hsame : e.Welcomes e := .of_eq rfl
  obtain ⟨nodes, -, hfits⟩ := hsits.fits
  obtain ⟨hfirst, hrest⟩ := List.forall_mem_cons.mp hf
  cases hfits with
  | raised hs =>
    generalize b.running = as at hs
    cases hs with
    | outer hout => exact absurd hout hinside
    | trigger hout =>
      cases err with
      | failure f => exact .go (.of_eq rfl) (.inl hout)
      | fault f => exact .go hsame (.inl hout)
      | mute f => exact .go hsame (.inl hout)
    | value hout => exact .go hsame (.inl hout)
    | pull _ _ =>
      exact .go hsame (.inr (.of_fails herr (.cleans hrest (hfirst.2.passes rfl err)) rfl (fun _ => rfl) rfl))
    | advance _ _ =>
      exact .go hsame (.inr (.of_fails herr (.cleans hrest (hfirst.2.passes rfl err)) rfl (fun _ => rfl) rfl))
    | checkpoint _ _ => cases hh
    | sleep _ _ => cases hh
    | walk hs => exact .go hsame (.inr (.of_fails herr (.raises hrest (hs.hears nofun)) rfl (fun _ => rfl) rfl))
    | output hs => exact .go hsame (.inr (.of_fails herr (.raises hrest (hs.hears nofun)) rfl (fun _ => rfl) rfl))
    | hop _ => exact .park (.of_eq rfl) (.inr (.of_fails herr (.raises hrest trivial) rfl (fun _ => rfl) rfl))

/-- A turn of a strand on which an error is on its way. -/
theorem Fails.turn {b : Book} {sig : Signal} (hsits : Sits b (s, .turn sig)) (herr : err.Follows r)
    (h : Fails err s (.turn sig)) (hinside : ¬∀ f ∈ s.frames, f.Outer) :
    e.Stays (Continues s (e.told s sig) r) (e.turn s sig) := by
  obtain ⟨id, sc, frames⟩ := s
  generalize hq : Parked.turn sig = q at h
  cases h with
  | raises hf hh =>
    obtain rfl := Parked.turn.inj hq
    cases frames with
    | nil => exact (hinside (by simp)).elim
    | cons f frames => exact rethrow_continues hsits herr hf hh hinside
  | cleans hf hs =>
    obtain rfl := Parked.turn.inj hq
    obtain ⟨nodes, -, hfits⟩ := hsits.fits
    cases hfits with
    | begins hc _ => exact hc.elim
    | behaves _ _ hstack => exact cleanUp_continues herr hs hf (hstack.hears nofun)
  | @pauses _ _ i w k fs _ hf hw hk hpauses =>
    subst hq
    cases sig with
    | back x =>
      show e.Stays _ (e.resumeBehavior ⟨id, sc, fs⟩ i w k x)
      unfold Engine.resumeBehavior
      split
      all_goals
        exact .go (.of_eq rfl) (.inr (.of_fails herr (.cleans hf (hk _)) rfl (fun _ => rfl) rfl))
    | _ => exact hpauses.elim

/-- A turn of a strand inside a trigger continues the word of the trigger. -/
theorem Spelled.turn {b : Book} {T : Nat} {word : List Notice} {sig : Signal} (hsits : Sits b (s, .turn sig))
    (hh : e.program.Relays) (h : Spelled T word (s, .turn sig)) (hinside : ¬∀ f ∈ s.frames, f.Outer) :
    e.Stays (Spelled T (word ++ e.told s sig)) (e.turn s sig) := by
  obtain ⟨body, rfl, hcount, hreads⟩ := h
  rcases hreads with ⟨hp, hr⟩ | ⟨err, r, herr, hfails, hr⟩
  · exact (hp.turn hsits hh hinside).mono fun x hx => hx.imp_right fun hc => hc.spelled hcount hr
  · exact (hfails.turn hsits herr hinside).mono fun x hx => hx.imp_right fun hc => hc.spelled hcount hr

end Failing

/-! ## The word all along a run -/

theorem Proceeds.unpark {s : Strand} {q : Parked} (h : Proceeds s q) (e : Engine) :
    Proceeds s (.turn (e.unpark q).1) ∧ s.opened (.turn (e.unpark q).1) = s.opened q := by
  refine ⟨⟨h.frames, ?_⟩, ?_⟩
  · cases q with
    | turn sig => exact h.parked
    | sleep id => exact trivial
    | _ => exact h.parked.elim
  · cases q with
    | turn sig => rfl
    | sleep id => rfl
    | _ => exact h.parked.elim

theorem Fails.unpark {s : Strand} {q : Parked} {err : Raised} (h : Fails err s q) (e : Engine) :
    Fails err s (.turn (e.unpark q).1) := by
  cases h with
  | raises hf hh => exact .raises hf hh
  | cleans hf hs => exact .cleans hf hs
  | pauses hf hw hk hq => exact .pauses hf hw hk (hq.unpark e)

/-- A strand that is taken up again goes on with its word. -/
theorem Spelled.unpark {T : Nat} {word : List Notice} {s : Strand} {q : Parked} (h : Spelled T word (s, q))
    (e : Engine) : Spelled T word (s, .turn (e.unpark q).1) := by
  obtain ⟨body, hword, hcount, hreads⟩ := h
  refine ⟨body, hword, hcount, ?_⟩
  rcases hreads with ⟨hp, hr⟩ | ⟨err, r, herr, hfails, hr⟩
  · obtain ⟨hp', hopened⟩ := hp.unpark e
    exact .inl ⟨hp', hopened.symm ▸ hr⟩
  · exact .inr ⟨err, r, herr, hfails.unpark e, hr⟩

theorem Frame.Outer.silent {f : Frame} (h : f.Outer) (T : Nat) :
    f.Relays ∧ f.opened = [] ∧ f.heading T = [] := by
  cases f <;> first | exact h.elim | exact ⟨trivial, rfl, rfl⟩

/-- The word of a strand right after its birth. -/
theorem Spelled.born {e : Engine} {s : Strand} {sig : Signal} {x : Strand × Parked} (h : Born e s sig x)
    (hf : ∀ f ∈ s.frames, f.Outer) : Spelled e.nextTrigger (e.told s sig) x := by
  have hframes : ∀ f ∈ s.frames, f.Relays := fun f hmem => ((hf f hmem).silent 0).1
  have hopened : s.frames.flatMap Frame.opened = [] :=
    List.flatMap_eq_nil_iff.mpr fun f hmem => ((hf f hmem).silent 0).2.1
  have hheading : s.frames.flatMap (Frame.heading e.nextTrigger) = [] :=
    List.flatMap_eq_nil_iff.mpr fun f hmem => ((hf f hmem).silent _).2.2
  rw [Engine.told_of_raising?_none (by cases h <;> rfl)]
  cases h with
  | @trigger node origin port seeds hadmits =>
    refine ⟨[], ?_, executed_publishAll node seeds _, .inl ⟨⟨?_, trivial⟩, ?_⟩⟩
    · simp [Engine.progress, hadmits, Frame.heading, hheading]
    · exact List.forall_mem_cons.mpr ⟨trivial, hframes⟩
    · simp [reading, Strand.opened, Parked.opened, Signal.opened, Frame.opened, hopened]
  | value =>
    refine ⟨[], ?_, rfl, .inl ⟨⟨?_, trivial⟩, ?_⟩⟩
    · simp [Engine.progress, Frame.heading, hheading]
    · exact List.forall_mem_cons.mpr ⟨trivial, hframes⟩
    · simp [reading, Strand.opened, Parked.opened, Signal.opened, Frame.opened, hopened]

section Runs

variable {run : Nat → Engine.Turn} {n : Nat} {T : Nat}

/-- All along a run the word of a trigger belongs to what its strand has in progress. -/
theorem spelled_run (hopens : Opens (run 0)) (hplays : ∀ k < n, Play (run k) (run (k + 1)))
    (hh : ∀ k < n, (run k).engine.program.Relays) (hT : T ≠ 0) {k : Nat} (hk : k ≤ n) :
    During T (Spelled T ((run k).engine.heard T)) (run k) := by
  refine during_run (P := fun k => Spelled T ((run k).engine.heard T)) hopens hplays hT ?_ ?_ ?_ ?_ hk
  · intro k hk s sig x hn hnext hborn
    obtain ⟨L, hL⟩ := orderly_run hopens hplays hk.le
    have hf := hborn.outer (hL.placed _ (Engine.Turn.mem_population_of_next hn)).sits
    have htold : (run k).toldOf T = (run k).engine.told s sig := by
      rw [Engine.Turn.toldOf, Engine.Turn.told_of_next hn, Engine.told_of_raising?_none (by cases hborn <;> rfl)]
      cases hborn with
      | trigger hadmits => simp [Engine.progress, hadmits, Notice.trigger?, hnext]
      | value => rfl
    rw [heard_step (hplays k hk).step, heard_eq_nil_of_unborn hopens hplays hk.le hnext.le, htold, ← hnext]
    exact .born hborn hf
  · intro k hk s sig hn hsT hinside hspelled
    obtain ⟨L, hL⟩ := orderly_run hopens hplays hk.le
    have hsits := (hL.placed _ (Engine.Turn.mem_population_of_next hn)).sits
    have htold : (run k).toldOf T = (run k).engine.told s sig := by
      rw [← hsT]
      refine Engine.Turn.toldOf_of_next hn fun node origin port seeds heq => hinside ?_
      subst heq
      exact hsits.outer_of_trigger
    rw [heard_step (hplays k hk).step, htold]
    exact hspelled.turn hsits (hh k hk) hinside
  · intro k hk hknown hothers x hspelled
    rw [heard_step (hplays k hk).step, Engine.Turn.toldOf_eq_nil hknown hothers, List.append_nil]
    exact hspelled
  · exact fun k _ s p e hspelled => hspelled.unpark e

/-- When what control flow has begun comes back to a trigger, nothing is open. -/
theorem Reads.of_trigger {r : Option Reading} {s : Strand} {sig : Signal} {node : String} {origin : Origin}
    {fs : List Frame} (h : Reads r s (.turn sig)) (hf : s.frames = .trigger node origin :: fs)
    (hout : ∀ f ∈ fs, f.Outer) {x : Result} (hsig : sig = .back x) : r = some (.inside []) := by
  obtain ⟨id, sc, frames⟩ := s
  subst hf hsig
  rcases h with ⟨-, hr⟩ | ⟨err, -, -, hfails, -⟩
  · have hopened : fs.flatMap Frame.opened = [] :=
      List.flatMap_eq_nil_iff.mpr fun f hmem => ((hout f hmem).silent 0).2.1
    rw [hr]
    exact congrArg (fun opened => some (Reading.inside opened)) hopened
  · cases hfails

/-- What the turn tells that ends a trigger. -/
theorem told_of_ends {e : Engine} {s : Strand} {sig : Signal} {node : String} {origin : Origin} {fs : List Frame}
    {error : Option Failure} (hf : s.frames = .trigger node origin :: fs)
    (hsig : (∃ x, sig = .back x) ∧ error = none ∨ ∃ f, sig = .raise (.failure f) ∧ error = some f) :
    e.told s sig = [.triggerFinished s.scope.trigger node (e.resultOf s.scope node error).status s.scope.executed
      origin] := by
  obtain ⟨id, sc, frames⟩ := s
  subst hf
  rcases hsig with ⟨⟨x, rfl⟩, rfl⟩ | ⟨f, rfl, rfl⟩
  · exact Engine.told_of_raising?_none rfl
  · exact Engine.told_of_raising?_none rfl

/-- What observers are told of a trigger that has ended, if anything: its start, a word in which nodes finish
in the reverse order of their start and which an error ends, and its end. The word leaves nothing open unless
the trigger has failed, and the result counts the nodes that have finished. -/
theorem trigger_word (hopens : Opens (run 0)) (hplays : ∀ k < n, Play (run k) (run (k + 1)))
    (hh : ∀ k < n, (run k).engine.program.Relays) {b : Nat} (hb : b < n) {R : TriggerResult}
    (hends : (run b).Ends R) :
    ((run n).engine.heard R.trigger).countP Notice.isFinish = R.executed ∧
      ((run n).engine.heard R.trigger = [] ∨ ∃ origin body r,
        (run n).engine.heard R.trigger = .triggerStarted R.trigger R.origin origin ::
          (body ++ [.triggerFinished R.trigger R.origin R.status R.executed origin]) ∧
        (∀ m ∈ body, m.isBound = false) ∧ reading body = some r ∧ (R.status ≠ .error → r = .inside [])) := by
  obtain ⟨L, hL⟩ := orderly_run hopens hplays hb.le
  have hstep := (hplays b hb).step
  obtain ⟨hpos, hknown⟩ := hends.known hL hstep
  rw [(heard_eq_of_over hopens hplays (Nat.succ_le_of_lt hb) le_rfl hpos (hends.over hL hstep hpos hknown)).2,
    heard_step hstep]
  rcases hends.cases hL with ⟨s, node, origin, port, seeds, hn, hrun, rfl⟩ |
    ⟨s, sig, node, origin, fs, error, hn, hf, hR, hsig⟩
  · -- the trigger was refused, and nothing is told of it
    have hquiet : (run b).toldOf (run b).engine.nextTrigger = [] := by
      rw [Engine.Turn.toldOf, Engine.Turn.told_of_next hn, Engine.told_of_raising?_none rfl]
      simp [Engine.progress, Engine.admits, hrun]
    rw [heard_eq_nil_of_unborn hopens hplays hb.le le_rfl, hquiet]
    exact ⟨rfl, .inl rfl⟩
  · have hmem := Engine.Turn.mem_population_of_next hn
    have hout := (hL.placed _ hmem).sits.outer_below_trigger hf
    have hs : s.scope.trigger = R.trigger := by rw [hR]; rfl
    obtain ⟨body, hword, hcount, hreads⟩ := (spelled_run hopens hplays hh hpos hb.le).of_top hn hs hf id
    have hheading : s.frames.flatMap (Frame.heading R.trigger) = [.triggerStarted R.trigger R.origin origin] := by
      rw [hf, List.flatMap_cons, List.flatMap_eq_nil_iff.mpr fun f hmem => ((hout f hmem).silent _).2.2, hR]
      rfl
    have htold : (run b).toldOf R.trigger =
        [.triggerFinished R.trigger R.origin R.status R.executed origin] := by
      rw [← hs, Engine.Turn.toldOf_of_next hn (by rcases hsig with ⟨⟨x, rfl⟩, -⟩ | ⟨f, rfl, -⟩ <;> simp), hR]
      exact told_of_ends hf hsig
    rw [hword, htold, hheading]
    have hexecuted : R.executed = body.countP Notice.isFinish := by
      rw [hR]
      exact hcount
    refine ⟨?_, .inr ⟨origin, body, ?_⟩⟩
    · simp [hexecuted, Notice.isFinish]
    · obtain ⟨r, hr⟩ : ∃ r, reading body = some r := by
        rcases hreads with ⟨-, hr⟩ | ⟨err, r, -, -, hr⟩
        · exact ⟨_, hr⟩
        · exact ⟨_, hr⟩
      refine ⟨r, rfl, isBound_of_reading hr, hr, fun hstatus => ?_⟩
      rcases hsig with ⟨⟨x, hx⟩, -⟩ | ⟨f, -, herror⟩
      · exact Option.some.inj (hr.symm.trans (hreads.of_trigger hf hout hx))
      · rw [hR, herror] at hstatus
        exact absurd rfl hstatus

end Runs

/-! ## A value below an input and a body -/

/-- A block with a body that asks for the value of a node. -/
def nestedSession : Engine.Turn :=
  opening (.initial {}
    { kinds := [.sketch "block" .statement [{ id := "exec", valueType := .exec }] [Library.leads "body"]
          (some enclosing),
        .sketch "sink" .statement [{ id := "exec", valueType := .exec }, { id := "in" }] [Library.leads "exec"]
          (some consuming),
        .sketch "one" .expression [] [Library.yields "value" .any] (some fun _ => .finish (.int 1))] }
    { nodes := [{ serial := 0, id := "b", kind := "block" }, { serial := 1, id := "s", kind := "sink" },
        { serial := 2, id := "f", kind := "one" }]
      edges := [⟨"b", "body", "s", "exec"⟩, ⟨"f", "value", "s", "in"⟩]
      nextSerial := 3 } 0.01)
    [.runNode "b"]

/-- The state after a number of steps of that session. -/
def nested (n : Nat) : Engine.Turn := (follow n (nestedSession, fun _ => {})).1

theorem relays_nestedSession : nestedSession.engine.program.Relays := by
  intro k hk b hb state
  rcases List.mem_cons.mp hk with rfl | hk
  · obtain rfl := Option.some.inj hb
    exact .nest rfl (fun _ => .finish _) (fun _ => .fail)
  rcases List.mem_cons.mp hk with rfl | hk
  · obtain rfl := Option.some.inj hb
    exact .nest rfl (fun _ => .finish _) (fun _ => .fail)
  · rw [List.mem_singleton.mp hk] at hb
    obtain rfl := Option.some.inj hb
    exact .finish _

/-- The block, its body and the value finish in the reverse order of their start. -/
theorem trigger_word_nested : ∃ R origin body, (nested 21).Ends R ∧ R.status = .ok ∧
    (nested 24).engine.heard R.trigger = .triggerStarted R.trigger R.origin origin ::
      (body ++ [.triggerFinished R.trigger R.origin R.status R.executed origin]) ∧
    reading body = some (.inside []) ∧ body.countP Notice.isFinish = 3 := by
  have hopens : Opens (nested 0) := by
    show Opens nestedSession
    refine ⟨_, _, _, _, _, ?_, rfl⟩
    exact ⟨by decide, by decide⟩
  have hgoes : ∀ k < 24, (Engine.advance (nested k)).isSome = true := by decide +kernel
  have hplays : ∀ k < 24, Play (nested k) (nested (k + 1)) :=
    fun k hk => .of_advance (advance_follow (hgoes k hk))
  have hhands : ∀ k < 24, (nested k).engine.program.Relays := by
    intro k hk
    have hkinds : (nested k).engine.registry = nestedSession.engine.registry := by
      interval_cases k <;> with_unfolding_all rfl
    show ∀ x ∈ (nested k).engine.registry.kinds, _
    rw [hkinds]
    exact relays_nestedSession
  obtain ⟨s, x, node, origin, fs, hn, hf, hT⟩ : ∃ s x node origin fs,
      (nested 21).next = some (s, .back x) ∧ s.frames = .trigger node origin :: fs ∧ s.scope.trigger = 1 := by
    with_unfolding_all exact ⟨_, _, _, _, _, rfl, rfl, rfl⟩
  have hends := Engine.Turn.Ends.of_trigger hn hf (.inl ⟨⟨x, rfl⟩, rfl⟩)
  have htrigger : ((nested 21).engine.resultOf s.scope node none).trigger = 1 := hT
  have hstatus : ((nested 21).engine.resultOf s.scope node none).status = .ok := by
    have hrun : (nested 21).engine.running = true := by decide +kernel
    simp [Engine.resultOf, hrun]
  obtain ⟨-, hword⟩ := trigger_word hopens hplays hhands (by decide) hends
  rw [htrigger] at hword
  have hfinished : ((nested 24).engine.heard 1).countP Notice.isFinish = 3 := by decide +kernel
  rcases hword with hnil | ⟨origin', body, r, hword, -, hr, hopen⟩
  · rw [hnil] at hfinished
    cases hfinished
  · refine ⟨_, origin', body, hends, hstatus, ?_, ?_, ?_⟩
    · rw [htrigger]
      exact hword
    · have hok : Status.ok ≠ .error := nofun
      rw [hr, hopen (hstatus ▸ hok)]
    · rw [hword] at hfinished
      simpa [Notice.isFinish] using hfinished

end Patchbay
