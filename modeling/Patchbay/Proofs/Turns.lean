import Patchbay.Proofs.Chronicles

/-!
# Whom a dispatch calls

A dispatch goes through the listeners that were registered for the event when it began. A listener has its turn
when those before it have had theirs; it is called then unless it has been cancelled, by whatever was called
before it. Listeners that are added meanwhile have no turn. What a dispatch yields is how many listeners there
were at the beginning, and this is how many it has called only if none was cancelled before its turn.

Contents:
* `Within.recording`, `recorded`: a larger state beside a record of the calls that are made in it.
* `isLive`: a registration that can be called; `turn`: the state in which a listener has its turn.

Results:
* `deliver_recording`: the calls of a delivery, whatever is called does.
* `Kept.isLive_of_heard`: who is called first of all can be called.
* `dispatch_counts_iff`: the calls of a dispatch and what it yields.
-/

namespace Patchbay

namespace Scheduler

variable {κ α σ : Type} {w : Within κ α σ} {run : Registration κ → Value → σ → σ}

/-! ## Recording -/

/-- A larger state beside a record of the calls that are made in it: who is called, and with what. -/
def Within.recording (w : Within κ α σ) : Within κ α (σ × List (Nat × Value)) where
  get st := w.get st.1
  put st s := (w.put st.1 s, st.2)

/-- A registration is called, which is recorded. -/
def recorded (run : Registration κ → Value → σ → σ) (r : Registration κ) (payload : Value)
    (st : σ × List (Nat × Value)) : σ × List (Nat × Value) :=
  (run r payload st.1, st.2 ++ [(r.id, payload)])

/-- Whether a registration can be called. -/
def isLive (s : Scheduler κ α) (id : Nat) : Bool := (s.find? id).any fun r => !r.cancelled

/-- The state in which a listener has its turn. -/
def turn (w : Within κ α σ) (run : Registration κ → Value → σ → σ) (payload : Value) (st : σ) (ids : List Nat)
    (id : Nat) : σ :=
  deliver w run payload st (ids.takeWhile fun i => i ≠ id)

/-- Those of some listeners that can be called when they have their turn. -/
def callable (w : Within κ α σ) (run : Registration κ → Value → σ → σ) (payload : Value) (st : σ)
    (ids : List Nat) : List Nat :=
  ids.filter fun id => isLive (w.get (turn w run payload st ids id)) id

theorem find?_eq_some_of_isLive {s : Scheduler κ α} {id : Nat} (h : isLive s id = true) :
    ∃ r, s.find? id = some r ∧ r.cancelled = false := by
  obtain ⟨r, hr, hlive⟩ := (Option.any_eq_true _ _).mp h
  exact ⟨r, hr, by simpa using hlive⟩

/-- A delivery goes on after the turn of its first listener. -/
theorem deliver_cons (payload : Value) (st : σ) (id : Nat) (ids : List Nat) :
    deliver w run payload st (id :: ids) =
      deliver w run payload (if isLive (w.get st) id then call w run id payload st else st) ids := by
  have hturn : deliver w run payload st [id] = if isLive (w.get st) id then call w run id payload st else st := by
    simp only [deliver, List.foldl_cons, List.foldl_nil, isLive]
    obtain hr | ⟨r, hr⟩ := ((w.get st).find? id).eq_none_or_eq_some
    · simp [hr]
    · by_cases hc : r.cancelled = true <;> simp [hr, hc]
  rw [← hturn]
  rfl

/-- A call is recorded, and is otherwise the call that it is without a record. -/
theorem call_recording {st : σ} {id : Nat} (h : isLive (w.get st) id = true) (payload : Value)
    (calls : List (Nat × Value)) :
    call w.recording (recorded run) id payload (st, calls) =
      (call w run id payload st, calls ++ [(id, payload)]) := by
  obtain ⟨r, hr, -⟩ := find?_eq_some_of_isLive h
  have hfind := find?_modify (w.get st) id id (f := fun r => { r with fired := r.fired + 1 }) fun _ => rfl
  obtain ⟨r', hr', hid⟩ : ∃ r', ((w.get st).modify id fun r => { r with fired := r.fired + 1 }).find? id = some r' ∧
      r'.id = id := by
    rw [hfind, hr]
    exact ⟨_, rfl, id_of_find? (hfind.trans (by rw [hr]; rfl))⟩
  simp only [call, Within.recording, recorded, hr', hid]

/-- A delivery calls those of its listeners that can be called when they have their turn, in their order. -/
theorem deliver_recording (payload : Value) {ids : List Nat} (hnodup : ids.Nodup) (st : σ)
    (calls : List (Nat × Value)) :
    deliver w.recording (recorded run) payload (st, calls) ids =
      (deliver w run payload st ids, calls ++ (callable w run payload st ids).map fun id => (id, payload)) := by
  induction ids generalizing st calls with
  | nil => simp [deliver, callable]
  | cons id ids ih =>
    obtain ⟨hfresh, hnodup⟩ := List.nodup_cons.mp hnodup
    -- the first listener has its turn at once, and the others after it
    have hfirst : turn w run payload st (id :: ids) id = st := by simp [turn, deliver]
    have hothers : ∀ j ∈ ids, turn w run payload st (id :: ids) j =
        turn w run payload (if isLive (w.get st) id then call w run id payload st else st) ids j := by
      intro j hj
      have hne : id ≠ j := fun heq => hfresh (heq ▸ hj)
      rw [turn, List.takeWhile_cons_of_pos (by simpa using hne), deliver_cons, turn]
    have hcallable : callable w run payload st (id :: ids) =
        (if isLive (w.get st) id then [id] else []) ++
          callable w run payload (if isLive (w.get st) id then call w run id payload st else st) ids := by
      rw [callable, List.filter_cons, hfirst, List.filter_congr fun j hj => by rw [hothers j hj], callable]
      split <;> rfl
    rw [deliver_cons, deliver_cons, hcallable]
    cases hlive : isLive (w.get st) id with
    | true =>
      have hrecording : isLive (w.recording.get (st, calls)) id = true := hlive
      rw [if_pos hrecording, call_recording hlive, ih hnodup]
      simp
    | false =>
      have hrecording : isLive (w.recording.get (st, calls)) id = false := hlive
      rw [hrecording, if_neg Bool.false_ne_true, ih hnodup]
      simp

end Scheduler

/-! ## Dispatching -/

namespace Chronicle

open Scheduler

variable {κ α : Type} [DecidableEq α] {fire : Nat → α} {c : Chronicle κ α}

/-- The listeners of an event can be called. -/
theorem Kept.isLive_of_heard (h : c.Kept fire) {name : String} {id : Nat}
    (hid : id ∈ (listening name c.log).map Entry.id) : isLive c.scheduler id = true := by
  rw [h.logged.listening_eq] at hid
  obtain ⟨x, hx, hhears, rfl⟩ := mem_listed.mp hid
  obtain ⟨r, hr, rfl⟩ := List.mem_map.mp hx
  have hactive : r.cancelled = false := by
    simp only [Standing.hears, Standing.isActive, Bool.and_eq_true, Bool.not_eq_true'] at hhears
    exact hhears.1.1.1
  have hfind : c.scheduler.find? r.id = some r := h.inStep.find?_of_mem hr
  simp only [isLive, Registration.standing, hfind, Option.any_some, hactive, Bool.not_false]

/-- A dispatch calls, in the order in which they were registered, once each and with the payload, the listeners that
were registered for the event at the beginning and are not cancelled when they have their turn, whatever they do
when they are called. It yields how many they were at the beginning: as many as it has called exactly when none was
cancelled before its turn. -/
theorem dispatch_counts_iff (hfire : fire.Injective) {shortest : Float}
    (hcourse : Course fire { scheduler := { minInterval := shortest } } c) {σ : Type} (w : Within κ α σ)
    (run : Registration κ → Value → σ → σ) {st : σ} (hst : w.get st = c.scheduler) (name : String)
    (payload : Value) :
    let ids := (listening name c.log).map Entry.id
    let out := dispatch w.recording (recorded run) (.str name) payload (st, [])
    dispatch w run (.str name) payload st = (out.1, out.2.1) ∧
      ids.Nodup ∧ (∀ id ∈ ids, isLive (w.get st) id = true) ∧
      out.2.2 = (callable w run payload st ids).map (fun id => (id, payload)) ∧
      out.1 = .ok ids.length ∧
      (out.1 = .ok out.2.2.length ↔ ∀ id ∈ ids, isLive (w.get (turn w run payload st ids id)) id = true) := by
  intro ids out
  have hkept := (Kept.initial fire shortest).course hfire hcourse
  have hheard : (w.get st).listenersFor (.str name) = .ok ids := hst ▸ hkept.accurate.heard name
  have hnodup : ids.Nodup := hkept.accurate.once.sublist (List.filter_sublist.map Entry.id)
  have hplain : dispatch w run (.str name) payload st = (.ok ids.length, deliver w run payload st ids) := by
    simp only [dispatch, hheard]
  have hout : out = (.ok ids.length, deliver w run payload st ids,
      (callable w run payload st ids).map fun id => (id, payload)) := by
    have hrecording : (w.recording.get (st, [])).listenersFor (.str name) = .ok ids := hheard
    simp only [out, dispatch, hrecording, deliver_recording payload hnodup, List.nil_append]
  rw [hout]
  refine ⟨hplain, hnodup, fun id hid => hst ▸ hkept.isLive_of_heard hid, rfl, rfl, ?_⟩
  have hlength : ((callable w run payload st ids).map fun id => (id, payload)).length =
      (callable w run payload st ids).length := List.length_map _
  rw [hlength, Except.ok.injEq, eq_comm, callable, List.length_filter_eq_length_iff]

/-- Two listeners for a bell. -/
def paired : Chronicle (Option Nat) Nat :=
  let first : Chronicle (Option Nat) Nat := { scheduler := {} }
  let second := first.after (first.scheduler.listen "a" (.str "bell") (some 1)).2
    [.made ⟨0, "a", .listener, some "bell"⟩]
  second.after (second.scheduler.listen "b" (.str "bell") none).2 [.made ⟨1, "b", .listener, some "bell"⟩]

theorem course_paired : Course id { scheduler := {} } paired :=
  (Relation.ReflTransGen.single (.listen _ "a" "bell" (some 1))).tail (.listen _ "b" "bell" none)

/-- What is called cancels the registration that it was made with. -/
def cancelling (r : Registration (Option Nat)) (_ : Value) (s : Scheduler (Option Nat) Nat) :
    Scheduler (Option Nat) Nat :=
  match r.callback with
  | some id => (s.cancel id).2
  | none => s

/-- What is called registers another listener. -/
def spreading (r : Registration (Option Nat)) (_ : Value) (s : Scheduler (Option Nat) Nat) :
    Scheduler (Option Nat) Nat :=
  (s.listen r.owner r.event r.callback).2

/-- Both listeners for a bell register another one when they are called. Those are not called, and the dispatch
yields two. -/
theorem dispatch_counts_spreading :
    let out := dispatch alone.recording (recorded spreading) (.str "bell") .null (paired.scheduler, [])
    out.2.2 = [(0, .null), (1, .null)] ∧ out.1 = .ok 2 ∧ out.2.1.registrations.length = 4 := by
  intro out
  have hcourse : Course id { scheduler := { minInterval := 0.01 } } paired := course_paired
  have hget : alone.get paired.scheduler = paired.scheduler := rfl
  obtain ⟨-, -, -, hcalls, hyields, -⟩ :=
    dispatch_counts_iff Function.injective_id hcourse alone spreading hget "bell" .null
  have hcallable : callable alone spreading .null paired.scheduler ((listening "bell" paired.log).map Entry.id) =
      [0, 1] := by decide +kernel
  rw [hcallable] at hcalls
  exact ⟨hcalls, hyields.trans (congrArg Except.ok (by decide +kernel)), by decide +kernel⟩

/-- The first of two listeners cancels the second one. A dispatch calls the first alone and yields two. -/
theorem dispatch_miscounts_cancelled :
    let out := dispatch alone.recording (recorded cancelling) (.str "bell") .null (paired.scheduler, [])
    Course id { scheduler := {} } paired ∧ out.1 = .ok 2 ∧ out.2.2.map Prod.fst = [0] := by
  refine ⟨course_paired, by with_unfolding_all rfl, by decide +kernel⟩

end Chronicle

end Patchbay
