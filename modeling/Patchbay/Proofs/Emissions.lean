import Patchbay.Emitter
import Patchbay.Engine.State

/-!
# Who is told of events

An event that is emitted reaches those who are subscribed at that moment, each once and in the order in which they
subscribed. What one of them does when it is told, to subscribe, to unsubscribe or to emit further events, and that it
fails in the end, makes no difference to that: it only puts further deliveries behind its own.

An engine keeps what observers are told as a trace. To those who only listen, an emitter delivers the events of that
trace, one after another.

Contents:
* `Subscriber.told`: what a subscriber is told of an event; `Subscriber.Listens`: whether it does nothing in turn.
* `Notice.event?`: the event that a notice is.
* `Emitter.relayed`: an emitter that has emitted what an engine has told.

Results:
* `Emitter.deliveries_emit`: an event that is emitted.
* `Emitter.relayed_emit`: what an engine tells next an emitter emits next.
* `Emitter.relayed_of_listens`: those who only listen are told of all that an engine has told.
-/

namespace Patchbay

/-! ## Deliveries -/

/-- What a subscriber is told of an event: an observer with callbacks, only if it has the one that the event is for. -/
def Subscriber.told (e : Event) : Subscriber → List Delivery
  | .plain _ name _ _ => [.heard name e]
  | .observer _ name callbacks => match e.observed? with
    | some (c, arguments) => if callbacks.contains c then [.called name c arguments] else []
    | none => []

/-- Whether a subscriber does nothing in turn when it is told. -/
def Subscriber.Listens : Subscriber → Prop
  | .plain _ _ follow _ => follow = []
  | .observer _ _ _ => True

namespace Emitter

section Adding

variable {tell : Subscriber → Event → Emitter → Emitter}

/-- Whether telling a subscriber leaves what was delivered before. -/
def Adds (tell : Subscriber → Event → Emitter → Emitter) : Prop :=
  ∀ s e m, ∃ more, (tell s e m).deliveries = m.deliveries ++ more

theorem Adds.foldl (h : Adds tell) (e : Event) (ss : List Subscriber) (m : Emitter) :
    ∃ more, (ss.foldl (fun m s => tell s e m) m).deliveries = m.deliveries ++ more := by
  induction ss generalizing m with
  | nil => exact ⟨[], (List.append_nil _).symm⟩
  | cons s ss ih =>
    obtain ⟨more, hmore⟩ := h s e m
    obtain ⟨after, hafter⟩ := ih (tell s e m)
    exact ⟨more ++ after, by rw [List.foldl_cons, hafter, hmore, List.append_assoc]⟩

/-- Whatever is done to an emitter, what it has delivered stays delivered. -/
theorem Adds.deedWith (h : Adds tell) (m : Emitter) (d : EmitterDeed) :
    ∃ more, (deedWith tell m d).2.deliveries = m.deliveries ++ more := by
  have hsame : ∀ m' : Emitter, m'.deliveries = m.deliveries → ∃ more, m'.deliveries = m.deliveries ++ more :=
    fun m' hm => ⟨[], by rw [hm, List.append_nil]⟩
  cases d with
  | make | clear => exact hsame _ rfl
  | makeObserver name callbacks =>
    simp only [Emitter.deedWith]
    split <;> exact hsame _ rfl
  | subscribe name =>
    simp only [Emitter.deedWith, Emitter.subscribe]
    split
    · split <;> exact hsame _ rfl
    · exact hsame _ rfl
  | unsubscribe name =>
    simp only [Emitter.deedWith]
    split <;> exact hsame _ rfl
  | emit e =>
    cases e with
    | error f => exact hsame _ rfl
    | ok e => exact h.foldl e m.subscribers m

theorem Adds.deedsWith (h : Adds tell) (ds : List EmitterDeed) (m : Emitter) :
    ∃ more, (deedsWith tell m ds).deliveries = m.deliveries ++ more := by
  induction ds generalizing m with
  | nil => exact ⟨[], (List.append_nil _).symm⟩
  | cons d ds ih =>
    obtain ⟨more, hmore⟩ := h.deedWith m d
    rw [Emitter.deedsWith]
    split
    · next m' hm' =>
      obtain ⟨after, hafter⟩ := ih m'
      exact ⟨more ++ after, by rw [hafter, ← List.append_assoc, ← hmore, hm']⟩
    · next m' hm' => exact ⟨more, by rw [← hmore, hm']⟩

end Adding

/-- A subscriber is told before it does anything in turn. -/
theorem Adds.tell {n : Nat} (h : Adds (tell n)) (s : Subscriber) (e : Event) (m : Emitter) :
    ∃ after, (Emitter.tell (n + 1) s e m).deliveries = m.deliveries ++ (s.told e ++ after) := by
  cases s with
  | plain id name follow fails =>
    obtain ⟨after, hafter⟩ := h.deedsWith follow { m with deliveries := m.deliveries ++ [.heard name e] }
    exact ⟨after, by rw [Emitter.tell, hafter, List.append_assoc]; rfl⟩
  | observer id name callbacks =>
    refine ⟨[], ?_⟩
    rw [List.append_nil, Emitter.tell, Subscriber.told]
    cases e.observed? with
    | none => exact (List.append_nil _).symm
    | some x =>
      obtain ⟨c, arguments⟩ := x
      dsimp only
      split
      · rfl
      · exact (List.append_nil _).symm

theorem adds_tell (n : Nat) : Adds (tell n) := by
  -- by the depth to which subscribers emit in turn
  induction n with
  | zero => exact fun _ _ _ => ⟨[], (List.append_nil _).symm⟩
  | succ n ih =>
    intro s e m
    obtain ⟨after, hafter⟩ := ih.tell s e m
    exact ⟨_, hafter⟩

/-- An event that is emitted is delivered to those who are subscribed, one after another, and each of them may do
something in turn, which puts further deliveries behind its own. To emit never fails. -/
theorem deliveries_emit (m : Emitter) (e : Event) : (m.deed (.emit (.ok e))).1 = .ok () ∧
    ∃ after : List (List Delivery), after.length = m.subscribers.length ∧
      (m.deed (.emit (.ok e))).2.deliveries =
        m.deliveries ++ (List.zipWith (fun s more => s.told e ++ more) m.subscribers after).flatten := by
  refine ⟨rfl, ?_⟩
  show ∃ after : List (List Delivery), after.length = m.subscribers.length ∧
    (m.subscribers.foldl (fun m s => tell depthBound s e m) m).deliveries = _
  generalize m.subscribers = ss
  induction ss generalizing m with
  | nil => exact ⟨[], rfl, (List.append_nil _).symm⟩
  | cons s ss ih =>
    obtain ⟨more, hmore⟩ := (adds_tell 999).tell s e m
    obtain ⟨after, hlength, hafter⟩ := ih (tell depthBound s e m)
    refine ⟨more :: after, congrArg (· + 1) hlength, ?_⟩
    rw [List.foldl_cons, hafter, List.zipWith_cons_cons, List.flatten_cons, ← List.append_assoc]
    exact congrArg (· ++ _) hmore

/-! ## Listeners -/

/-- Someone who only listens is told, and that is all. -/
theorem tell_of_listens {s : Subscriber} (h : s.Listens) (n : Nat) (e : Event) (m : Emitter) :
    tell (n + 1) s e m = { m with deliveries := m.deliveries ++ s.told e } := by
  cases s with
  | plain id name follow fails =>
    obtain rfl : follow = [] := h
    rfl
  | observer id name callbacks =>
    rw [Emitter.tell, Subscriber.told]
    cases e.observed? with
    | none => rw [List.append_nil]
    | some x =>
      obtain ⟨c, arguments⟩ := x
      dsimp only
      split
      · rfl
      · rw [List.append_nil]

theorem foldl_of_listens (e : Event) {ss : List Subscriber} (h : ∀ s ∈ ss, s.Listens) (m : Emitter) :
    ss.foldl (fun m s => tell depthBound s e m) m =
      { m with deliveries := m.deliveries ++ ss.flatMap (Subscriber.told e) } := by
  induction ss generalizing m with
  | nil => simp
  | cons s ss ih =>
    obtain ⟨hs, hss⟩ := List.forall_mem_cons.mp h
    rw [List.foldl_cons, show depthBound = 999 + 1 from rfl, tell_of_listens hs]
    refine (ih hss _).trans ?_
    rw [List.flatMap_cons, List.append_assoc]

/-! ## Notices -/

end Emitter

/-- The event that a notice is, where triggers have ids. The id of a run and how long something took are left out, and a
teardown is no event. -/
def Notice.event? (ids : Nat → String) : Notice → Option Event
  | .runStarted entries => some (.specific .runStarted none none [("entry_points", .list (entries.map .str))])
  | .runStopped cancelled => some (.specific .runStopped none none [("registrations_cancelled", .int cancelled)])
  | .triggerStarted t node origin =>
    some (.specific .triggerStarted (some (ids t)) (some node) [("origin", .str origin.name)])
  | .triggerFinished t node status executed origin =>
    some (.specific .triggerFinished (some (ids t)) (some node)
      [("status", .str status.name), ("nodes_executed", .int executed), ("origin", .str origin.name)])
  | .nodeStarted t node kind mode =>
    some (.specific .nodeStarted (some (ids t)) (some node) [("kind_id", .str kind), ("mode", .str mode.name)])
  | .nodeFinished t node kind outputs =>
    some (.specific .nodeFinished (some (ids t)) (some node)
      [("kind_id", .str kind), ("outputs_present", .list outputs)])
  | .nodeErrored t node error message =>
    some (.specific .nodeErrored (some (ids t)) (some node)
      [("error_class", .str error), ("error_message", .str message)])
  | .log t node level message =>
    some (.specific .log (some (ids t)) (some node) [("level", .str level), ("message", message)])
  | .tornDown _ => none

namespace Emitter

variable (ids : Nat → String)

/-- An emitter after it has emitted what a notice is. -/
def relay (m : Emitter) (n : Notice) : Emitter :=
  match n.event? ids with
  | some e => (m.deed (.emit (.ok e))).2
  | none => m

/-- An emitter after it has emitted what an engine has told so far. -/
def relayed (m : Emitter) (e : Engine) : Emitter := e.trace.toList.foldl (relay ids) m

/-- What an engine tells next an emitter emits next. -/
theorem relayed_emit (m : Emitter) (e : Engine) (n : Notice) :
    m.relayed ids (e.emit n) = (m.relayed ids e).relay ids n := by
  simp [relayed, Engine.emit]

/-- Those who only listen are told of all that an engine has told, in order. -/
theorem relayed_of_listens (m : Emitter) (h : ∀ s ∈ m.subscribers, s.Listens) (e : Engine) :
    m.relayed ids e = { m with
      deliveries := m.deliveries ++ (e.trace.toList.filterMap (Notice.event? ids)).flatMap fun event =>
        m.subscribers.flatMap (Subscriber.told event) } := by
  unfold relayed
  generalize e.trace.toList = ns
  induction ns generalizing m with
  | nil => simp
  | cons n ns ih =>
    rw [List.foldl_cons, List.filterMap_cons]
    cases hn : n.event? ids with
    | none =>
      have hsame : m.relay ids n = m := by rw [relay, hn]
      rw [hsame, ih m h]
    | some event =>
      have hone : m.relay ids n =
          { m with deliveries := m.deliveries ++ m.subscribers.flatMap (Subscriber.told event) } := by
        rw [relay, hn]
        exact foldl_of_listens event h m
      rw [hone]
      refine (ih { m with deliveries := m.deliveries ++ m.subscribers.flatMap (Subscriber.told event) } h).trans ?_
      simp only [List.flatMap_cons, List.append_assoc]

end Emitter

end Patchbay
