import Patchbay.Engine.Turn
import Patchbay.Proofs.Plain
import Patchbay.Proofs.Upkeep

/-!
# Turns that settle

A strand that resolves an input takes turn after turn, and now and then lets other strands run. What
it comes to is stated with `Settles`, whatever the others do, as long as they leave the program and
the variables alone; `Resolution` is one such run from its beginning to its end.

Results:
* `Settles.under`: what settles hands its end to the frame below.
* `Settles.resolution`: every run that ends, ends as it settles.
* `Engine.nodeWithKind_program`: an engine looks up nodes as its program does.
-/

namespace Patchbay

/-! ## Errors of the same kind -/

/-- Whether two errors have the same cause; they may differ in where they were reported. -/
def Raised.Alike : Raised → Raised → Prop
  | .failure f, .failure g => f.cause = g.cause
  | .fault f, .fault g => f = g
  | .mute f, .mute g => f = g
  | _, _ => False

theorem Raised.Alike.refl (err : Raised) : err.Alike err := by
  cases err <;> rfl

theorem Raised.Alike.name_eq {err err' : Raised} (h : err.Alike err') : err.name = err'.name := by
  cases err <;> cases err' <;> simp_all [Alike, name, Failure.family]

theorem Raised.Alike.trans {err err' err'' : Raised} (h : err.Alike err') (h' : err'.Alike err'') :
    err.Alike err'' := by
  cases err <;> cases err' <;> cases err'' <;> simp_all [Alike]

theorem Raised.Alike.raisedBy {err err' : Raised} (h : err.Alike err') (node : String)
    (k : Kind Behavior) : (Program.raisedBy node k err).Alike (Program.raisedBy node k err') := by
  cases err <;> cases err' <;> simp_all [Alike, Program.raisedBy, Raised.cause]

theorem Failure.cause_atNode (f : Failure) (node : String) : (f.atNode node).cause = f.cause := by
  unfold atNode
  split <;> rfl

theorem Failure.cause_inTrigger (f : Failure) (t : TriggerId) : (f.inTrigger t).cause = f.cause := by
  unfold inTrigger
  split <;> rfl

/-! ## Engines that run a program -/

namespace Engine

theorem find?_map_bare (ns : List Node) (id : String) :
    ((ns.map Node.bare).find? fun n => n.id == id) = (ns.find? fun n => n.id == id).map Node.bare := by
  rw [List.find?_map]
  rfl

theorem nodeWithKind_program (e : Engine) (id : String) :
    e.program.nodeWithKind id = (e.nodeWithKind id).map fun x => (x.1.bare, x.2) := by
  simp only [Program.nodeWithKind, nodeWithKind, Engine.program, Graph.requireNode, Graph.node?,
    find?_map_bare]
  cases e.graph.nodes.find? fun n => n.id == id with
  | none => rfl
  | some n =>
    simp only [Option.map_some, bind, Except.bind, Node.bare]
    cases e.registry.lookup n.kind <;> rfl

/-- Whether an engine runs a program on some variables. -/
structure Holds (e : Engine) (p : Program) (st : Variables) : Prop where
  program : e.program = p
  store : e.store = st

theorem Holds.emit {e : Engine} {p : Program} {st : Variables} (h : e.Holds p st) (n : Notice) :
    (e.emit n).Holds p st :=
  ⟨h.program, h.store⟩

/-- Changes of what a node remembers of its executions are no changes of the program. -/
theorem Holds.modifyNode {e : Engine} {p : Program} {st : Variables} (h : e.Holds p st) (serial : Nat)
    {f : Node → Node} (hf : ∀ n, (f n).bare = n.bare) : (e.modifyNode serial f).Holds p st := by
  refine ⟨?_, h.store⟩
  have hmap : ∀ ns : List Node,
      (ns.map fun n => if n.serial == serial then f n else n).map Node.bare = ns.map Node.bare := by
    intro ns
    rw [List.map_map]
    refine List.map_congr_left fun n _ => ?_
    simp only [Function.comp]
    split
    · exact hf n
    · rfl
  rw [← h.program]
  simp only [Engine.program, Engine.modifyNode, hmap]

theorem Holds.report {e : Engine} {p : Program} {st : Variables} (h : e.Holds p st) (sc : Scope)
    (i : Invocation) (f : Failure) : (e.report sc i f).2.Holds p st := by
  have hf : ∀ n : Node, { n with error := some f.message }.bare = n.bare := fun _ => rfl
  exact (h.modifyNode i.serial hf).emit _

theorem Holds.finishInvocation {e : Engine} {p : Program} {st : Variables} (h : e.Holds p st) (s : Strand)
    (i : Invocation) (v : Value) :
    ∃ e' : Engine, e'.Holds p st ∧ e.finishInvocation s i v =
      e'.go { s with scope := { s.scope with executed := s.scope.executed + 1 } } (.back (.invoked v i)) := by
  refine ⟨_, Holds.emit ?_ _, rfl⟩
  split
  · next os _ =>
    have hf : ∀ n : Node, { n with lastOutputs := os }.bare = n.bare := fun _ => rfl
    exact h.modifyNode i.serial hf
  · exact h

/-- An invocation that fails raises its error, or one for the fault that it met. -/
theorem Holds.failInvocation {e : Engine} {p : Program} {st : Variables} (h : e.Holds p st) (s : Strand)
    (i : Invocation) (err : Raised) :
    ∃ (e' : Engine) (err' : Raised), e'.Holds p st ∧ err'.Alike (Program.raisedBy i.node i.kind err) ∧
      e.failInvocation s i err = e'.go s (.raise err') := by
  cases err with
  | failure f =>
    simp only [Engine.failInvocation]
    split
    · exact ⟨e, _, h, .refl _, rfl⟩
    · refine ⟨_, _, h.report _ _ _, ?_, rfl⟩
      exact (Failure.cause_inTrigger _ _).trans (Failure.cause_atNode _ _)
  | fault f =>
    refine ⟨_, .failure _, h.report _ _ _, ?_, rfl⟩
    rfl
  | mute f => exact ⟨e, _, h, .refl _, rfl⟩

theorem Holds.nodeWithKind_ok {e : Engine} {p : Program} {st : Variables} (h : e.Holds p st) {id : String}
    {n : Node} {k : Kind Behavior} (hn : e.nodeWithKind id = .ok (n, k)) :
    p.nodeWithKind id = .ok (n.bare, k) := by
  rw [← h.program, nodeWithKind_program, hn]
  rfl

theorem Holds.nodeWithKind_error {e : Engine} {p : Program} {st : Variables} (h : e.Holds p st)
    {id : String} {err : Raised} (hn : e.nodeWithKind id = .error err) :
    p.nodeWithKind id = .error err := by
  rw [← h.program, nodeWithKind_program, hn]
  rfl

end Engine

/-! ## Settling -/

/-- Whether a signal is the end of something that was begun. -/
def Signal.Ended : Signal → Prop
  | .call _ => False
  | .back _ => True
  | .raise _ => True

/-- Whether a strand is still busy with what it has begun above some frames. -/
def Busy (frames : List Frame) (s : Strand) (sig : Signal) : Prop :=
  frames <:+ s.frames ∧ ¬(s.frames = frames ∧ sig.Ended)

theorem Busy.call (s : Strand) (c : Call) : Busy s.frames s (.call c) :=
  ⟨List.suffix_rfl, fun h => h.2⟩

/-- A strand that has more frames is busy. -/
theorem Busy.of_cons {frames : List Frame} {f : Frame} {s : Strand} (h : f :: frames <:+ s.frames)
    (sig : Signal) : Busy frames s sig := by
  refine ⟨(List.suffix_cons f frames).trans h, fun h' => ?_⟩
  have hle := h.length_le
  rw [h'.1, List.length_cons] at hle
  omega

theorem Busy.of_frames {frames : List Frame} {f : Frame} {s : Strand} (h : s.frames = f :: frames)
    (sig : Signal) : Busy frames s sig := by
  have hsuf : f :: frames <:+ s.frames := h ▸ List.suffix_rfl
  exact .of_cons hsuf sig

theorem Engine.turn_back {s : Strand} {f : Frame} {frames : List Frame} (hf : s.frames = f :: frames)
    (e : Engine) (r : Result) : e.turn s (.back r) = e.back { s with frames := frames } f r := by
  simp only [Engine.turn, hf]

theorem Engine.turn_raise {s : Strand} {f : Frame} {frames : List Frame} (hf : s.frames = f :: frames)
    (e : Engine) (err : Raised) : e.turn s (.raise err) = e.raise { s with frames := frames } f err := by
  simp only [Engine.turn, hf]

/-- What a strand has begun above some frames comes to an end of which `post` holds. Where the strand
pauses, others may do anything but change the program or the variables. -/
inductive Settles (p : Program) (st : Variables) (frames : List Frame)
    (post : Engine → Scope → Signal → Prop) : Engine → Strand → Signal → Prop
  | ended {e : Engine} {s : Strand} {sig : Signal} (hf : s.frames = frames) (h : sig.Ended)
      (hpost : post e s.scope sig) : Settles p st frames post e s sig
  | turn {e e' : Engine} {s s' : Strand} {sig sig' : Signal} (hb : Busy frames s sig)
      (h : e.turn s sig = ⟨e', some (s', sig')⟩) (rest : Settles p st frames post e' s' sig') :
      Settles p st frames post e s sig
  | pause {e e' : Engine} {s s' : Strand} {sig sig' : Signal} (hb : Busy frames s sig)
      (h : e.turn s sig = ⟨e'.parkTurn s' sig', none⟩)
      (rest : ∀ e'', e''.Holds p st → Settles p st frames post e'' s' sig') :
      Settles p st frames post e s sig

/-- A run of a strand to the end of what it has begun above some frames, where others take turns when it
pauses. -/
inductive Resolution (p : Program) (st : Variables) (frames : List Frame) :
    Engine → Strand → Signal → Engine → Scope → Signal → Prop
  | ended {e : Engine} {s : Strand} {sig : Signal} (hf : s.frames = frames) (h : sig.Ended) :
      Resolution p st frames e s sig e s.scope sig
  | turn {e e' e₁ : Engine} {s s' : Strand} {sc₁ : Scope} {sig sig' sig₁ : Signal}
      (hn : Busy frames s sig) (h : e.turn s sig = ⟨e', some (s', sig')⟩)
      (rest : Resolution p st frames e' s' sig' e₁ sc₁ sig₁) : Resolution p st frames e s sig e₁ sc₁ sig₁
  | pause {e e' e'' e₁ : Engine} {s s' : Strand} {sc₁ : Scope} {sig sig' sig₁ : Signal}
      (hn : Busy frames s sig) (h : e.turn s sig = ⟨e'.parkTurn s' sig', none⟩)
      (hold : e''.Holds p st) (rest : Resolution p st frames e'' s' sig' e₁ sc₁ sig₁) :
      Resolution p st frames e s sig e₁ sc₁ sig₁

namespace Settles

variable {p : Program} {st : Variables} {frames : List Frame} {post post' : Engine → Scope → Signal → Prop}
  {e : Engine} {s : Strand} {sig : Signal}

theorem mono (h : Settles p st frames post e s sig) (k : ∀ e' sc' sig', post e' sc' sig' → post' e' sc' sig') :
    Settles p st frames post' e s sig := by
  induction h with
  | ended hf h hpost => exact .ended hf h (k _ _ _ hpost)
  | turn hb h _ ih => exact .turn hb h ih
  | pause hb h _ ih => exact .pause hb h ih

/-- What was begun above one more frame settles, and its end reaches that frame. -/
theorem under {f : Frame} (h : Settles p st (f :: frames) post e s sig)
    (k : ∀ e' s' sig', s'.frames = f :: frames → sig'.Ended → post e' s'.scope sig' →
      Settles p st frames post' e' s' sig') : Settles p st frames post' e s sig := by
  induction h with
  | ended hf h hpost => exact k _ _ _ hf h hpost
  | turn hb h _ ih => exact .turn (.of_cons hb.1 _) h ih
  | pause hb h _ ih => exact .pause (.of_cons hb.1 _) h ih

/-- A turn that begins something, and lets the strand go on. -/
theorem call {c : Call} {e' : Engine} {s' : Strand} {sig' : Signal} (h : e.call s c = e'.go s' sig')
    (rest : Settles p st s.frames post e' s' sig') : Settles p st s.frames post e s (.call c) :=
  .turn (.call s c) h rest

theorem back {f : Frame} {r : Result} {e' : Engine} {s' : Strand} {sig' : Signal}
    (hf : s.frames = f :: frames) (h : e.back { s with frames := frames } f r = e'.go s' sig')
    (rest : Settles p st frames post e' s' sig') : Settles p st frames post e s (.back r) :=
  .turn (.of_frames hf _) ((Engine.turn_back hf e r).trans h) rest

theorem raise {f : Frame} {err : Raised} {e' : Engine} {s' : Strand} {sig' : Signal}
    (hf : s.frames = f :: frames) (h : e.raise { s with frames := frames } f err = e'.go s' sig')
    (rest : Settles p st frames post e' s' sig') : Settles p st frames post e s (.raise err) :=
  .turn (.of_frames hf _) ((Engine.turn_raise hf e err).trans h) rest

/-- What runs on a task of its own hands on its end after a pause. -/
theorem hop (h : Settles p st (.hop :: frames) post e s sig)
    (hpost : ∀ e' e'' sc' sig', post e' sc' sig' → e''.Holds p st → post e'' sc' sig') :
    Settles p st frames post e s sig := by
  refine h.under fun e' s' sig' hf hs hp => ?_
  have hb : Busy frames s' sig' := .of_frames hf _
  cases sig' with
  | call c => exact hs.elim
  | back r =>
    exact .pause hb (Engine.turn_back hf e' r) fun e'' hold => .ended rfl hs (hpost _ _ _ _ hp hold)
  | raise err =>
    exact .pause hb (Engine.turn_raise hf e' err) fun e'' hold => .ended rfl hs (hpost _ _ _ _ hp hold)

theorem resolution {e₁ : Engine} {sc₁ : Scope} {sig₁ : Signal} (h : Settles p st frames post e s sig)
    (hr : Resolution p st frames e s sig e₁ sc₁ sig₁) : post e₁ sc₁ sig₁ := by
  induction h with
  | ended hf h hpost =>
    cases hr with
    | ended _ _ => exact hpost
    | turn hb _ _ => exact absurd ⟨hf, h⟩ hb.2
    | pause hb _ _ _ => exact absurd ⟨hf, h⟩ hb.2
  | turn hb h _ ih =>
    cases hr with
    | ended hf' h' => exact absurd ⟨hf', h'⟩ hb.2
    | turn _ h' rest =>
      rw [h] at h'
      simp only [Engine.Turn.mk.injEq, Option.some.injEq, Prod.mk.injEq] at h'
      obtain ⟨rfl, rfl, rfl⟩ := h'
      exact ih rest
    | pause _ h' _ _ => rw [h] at h'; simp at h'
  | pause hb h _ ih =>
    cases hr with
    | ended hf' h' => exact absurd ⟨hf', h'⟩ hb.2
    | turn _ h' _ => rw [h] at h'; simp at h'
    | pause _ h' hold rest =>
      rw [h] at h'
      have hpark := congrArg (fun t => t.engine.strands.head?) h'
      simp only [Engine.parkTurn, Engine.park, Engine.soon, List.head?_cons, Option.some.injEq,
        Prod.mk.injEq, Parked.turn.injEq] at hpark
      obtain ⟨rfl, rfl⟩ := hpark
      exact ih _ hold rest

/-- What settles can be run to its end. -/
theorem exists_resolution {e₀ : Engine} (hold : e₀.Holds p st) (h : Settles p st frames post e s sig) :
    ∃ e₁ sc₁ sig₁, Resolution p st frames e s sig e₁ sc₁ sig₁ ∧ post e₁ sc₁ sig₁ := by
  induction h with
  | ended hf h hpost => exact ⟨_, _, _, .ended hf h, hpost⟩
  | turn hb h _ ih =>
    obtain ⟨e₁, sc₁, sig₁, hr, hpost⟩ := ih
    exact ⟨e₁, sc₁, sig₁, .turn hb h hr, hpost⟩
  | pause hb h _ ih =>
    obtain ⟨e₁, sc₁, sig₁, hr, hpost⟩ := ih e₀ hold
    exact ⟨e₁, sc₁, sig₁, .pause hb h hold hr, hpost⟩

end Settles

end Patchbay
