import Patchbay.Proofs.Births
import Patchbay.Proofs.Propagation

/-!
# The seats of invocations

Control flow reaches a node and runs its behaviour, or a pull does that needs an output of the node. Either way the
invocation ends where it began: what is below it on the frames of its strand is the rest of the agenda, or the output
that is needed, of the same node. A pull may run its node on a task of its own; the result then waits there for one
turn of the loop.

Contents:
* `Seat`, `Seated`: what is below an invocation, and below all of those that wait.
* `Signal.Ends`: the turns that leave a strand with the result of an invocation.
* `Reseats`: what a turn leaves.

Results:
* `turn_reseats`: every turn keeps the seats, and only these turns leave a result.
* `sedate_run`: the seats in the strand of a trigger, all along a run.
-/

namespace Patchbay

/-! ## Seats -/

/-- What is below an invocation: the control flow that reached its node, or an output of its node that a pull needs. -/
inductive Seat (i : Invocation) : List Frame → Prop
  | flow (hmode : i.mode = .exec) (agenda : List String) (fs : List Frame) : Seat i (.walk agenda :: fs)
  | pull (hmode : i.mode = .pull) (port : String) (fs : List Frame) : Seat i (.output i.node port i.serial :: fs)
  | hop (hmode : i.mode = .pull) (port : String) (fs : List Frame) :
      Seat i (.hop :: .output i.node port i.serial :: fs)

/-- Whether an invocation that waits has its seat. -/
def Frame.SeatedOn : Frame → List Frame → Prop
  | .behavior i _ _, fs => Seat i fs
  | _, _ => True

/-- Whether all invocations that wait have their seats. -/
def Seated : List Frame → Prop
  | [] => True
  | f :: fs => f.SeatedOn fs ∧ Seated fs

/-- Whether the invocation that a strand goes on with has its seat. -/
def Signal.SeatedOn : Signal → List Frame → Prop
  | .call (.invoke i), fs => Seat i fs
  | .call (.behave i _), fs => Seat i fs
  | .back (.invoked _ i), fs => Seat i fs
  | _, _ => True

/-- Whether a signal is about no invocation. -/
def Signal.Plain : Signal → Prop
  | .call (.invoke _) => False
  | .call (.behave _ _) => False
  | .back (.invoked _ _) => False
  | _ => True

/-- Whether a turn leaves its strand with a result: the invocation ends by it, or the result leaves the task that it
was on. -/
def Signal.Ends (s : Strand) (sig : Signal) (v : Value) (i : Invocation) : Prop :=
  sig = .call (.behave i (.finish v)) ∨ sig = .back (.invoked v i) ∧ ∃ fs, s.frames = .hop :: fs

/-- What a turn leaves of its strand: all invocations have their seats, and a result only where one ends. -/
structure Reseats (s : Strand) (sig : Signal) (x : Strand × Parked) : Prop where
  frames : Seated x.1.frames
  next : ∀ sig', x.2 = .turn sig' → sig'.SeatedOn x.1.frames
  source : ∀ v i, x.2 = .turn (.back (.invoked v i)) → sig.Ends s v i

/-- Whether all invocations of a strand have their seats. -/
structure Sedate (x : Strand × Parked) : Prop where
  frames : Seated x.1.frames
  next : ∀ sig, x.2 = .turn sig → sig.SeatedOn x.1.frames

theorem Signal.Plain.seatedOn {sig : Signal} (h : sig.Plain) (fs : List Frame) : sig.SeatedOn fs := by
  cases sig with
  | call c => cases c <;> trivial
  | back r => cases r <;> trivial
  | raise err => trivial

theorem Signal.Plain.ne_invoked {sig : Signal} (h : sig.Plain) (v : Value) (i : Invocation) :
    sig ≠ .back (.invoked v i) := by
  rintro rfl
  exact h

theorem Frame.Outer.seated {f : Frame} {fs : List Frame} (h : f.Outer) (hfs : Seated fs) : Seated (f :: fs) := by
  cases f with
  | behavior => exact h.elim
  | _ => exact ⟨trivial, hfs⟩

theorem seated_of_outer {fs : List Frame} (h : ∀ f ∈ fs, f.Outer) : Seated fs := by
  induction fs with
  | nil => trivial
  | cons f fs ih =>
    obtain ⟨hf, hfs⟩ := List.forall_mem_cons.mp h
    exact hf.seated (ih hfs)

/-- Only node, serial and mode of an invocation matter to its seat. -/
theorem Seat.congr {i j : Invocation} {fs : List Frame} (h : Seat i fs) (hnode : j.node = i.node)
    (hserial : j.serial = i.serial) (hmode : j.mode = i.mode) : Seat j fs := by
  cases h with
  | flow h agenda fs => exact .flow (hmode.trans h) agenda fs
  | pull h port fs => exact hnode ▸ hserial ▸ .pull (hmode.trans h) port fs
  | hop h port fs => exact hnode ▸ hserial ▸ .hop (hmode.trans h) port fs

/-! ## Turns -/

section Turns

variable {e e' : Engine} {s t : Strand} {sig sig' : Signal} {i : Invocation}

/-- A turn after which its strand goes on with something that is about no invocation. -/
theorem goes_plain (hw : e.Welcomes e') (hf : Seated t.frames) (hplain : sig'.Plain) :
    e.Stays (Reseats s sig) (e'.go t sig') := by
  refine .go hw (.inr ⟨hf, fun sig'' h => ?_, fun v i h => ?_⟩)
  · obtain rfl := Parked.turn.inj h
    exact hplain.seatedOn _
  · exact absurd (Parked.turn.inj h) (hplain.ne_invoked v i)

/-- A turn after which its strand waits, with a signal that is about no invocation, or with none. -/
theorem parks_plain (hw : e.Welcomes e') {q : Parked} (hf : Seated t.frames)
    (hplain : ∀ sig', q = .turn sig' → sig'.Plain) : e.Stays (Reseats s sig) ⟨e'.park t q, none⟩ :=
  .park hw (.inr ⟨hf, fun sig' h => (hplain sig' h).seatedOn _, fun v i h => absurd rfl ((hplain _ h).ne_invoked v i)⟩)

/-- A turn after which its strand goes on with an invocation. -/
theorem goes_behave (hw : e.Welcomes e') (hf : Seated t.frames) (hseat : Seat i t.frames) (script : Script) :
    e.Stays (Reseats s sig) (e'.go t (.call (.behave i script))) := by
  refine .go hw (.inr ⟨hf, fun sig'' h => ?_, fun _ _ h => by cases h⟩)
  obtain rfl := Parked.turn.inj h
  exact hseat

theorem goes_invoke (hw : e.Welcomes e') (hf : Seated t.frames) (hseat : Seat i t.frames) :
    e.Stays (Reseats s sig) (e'.go t (.call (.invoke i))) := by
  refine .go hw (.inr ⟨hf, fun sig'' h => ?_, fun _ _ h => by cases h⟩)
  obtain rfl := Parked.turn.inj h
  exact hseat

theorem failInvocation_reseats (hw : e.Welcomes e') (i : Invocation) (err : Raised) (hf : Seated t.frames) :
    e.Stays (Reseats s sig) (e'.failInvocation t i err) := by
  rw [Engine.failInvocation_eq]
  split
  · exact goes_plain hw hf trivial
  · have hreport : e.Welcomes (e'.report t.scope i (err.atInvocation t.scope.trigger i)).2 := hw
    exact goes_plain hreport hf trivial

theorem walk_reseats (agenda : List String) (hf : Seated s.frames) : e.Stays (Reseats s sig) (e.walk s agenda) := by
  have hsame : e.Welcomes e := .of_eq rfl
  have hcases := e.walk_cases s agenda
  generalize e.walk s agenda = t at hcases ⊢
  cases hcases with
  | done | stopped | unknown => exact goes_plain hsame hf trivial
  | @invokes _ rest => exact goes_invoke hsame ⟨trivial, hf⟩ (.flow rfl rest s.frames)
  | passes => exact goes_plain (.of_eq rfl) hf trivial

theorem awaitFor_reseats (hseat : Seat i s.frames) (w : Wait) (k : Except Raised w.Reply → Script)
    (hf : Seated s.frames) : e.Stays (Reseats s sig) (e.awaitFor s i w k) := by
  have hsame : e.Welcomes e := .of_eq rfl
  cases w with
  | pull port => exact goes_plain hsame ⟨hseat, hf⟩ trivial
  | advance port =>
    simp only [Engine.awaitFor]
    split
    · exact goes_behave hsame hf hseat _
    · have hadvanced : Seat { i with advanced := i.advanced ++ [port] } s.frames := hseat.congr rfl rfl rfl
      exact goes_plain hsame ⟨hadvanced, hf⟩ trivial
  | checkpoint =>
    refine parks_plain (.of_eq rfl) ⟨hseat, hf⟩ fun sig' h => ?_
    obtain rfl := Parked.turn.inj h
    trivial
  | sleep seconds =>
    simp only [Engine.awaitFor]
    split
    · exact goes_behave hsame hf hseat _
    · next id scheduler _ =>
      have hwaits : Seated (.behavior i (.sleep seconds) k :: s.frames) := ⟨hseat, hf⟩
      exact parks_plain (q := .sleep id) (.of_eq rfl) hwaits fun _ h => by cases h

theorem Seat.perform (hseat : Seat i s.frames) (e : Engine) (q : Query) :
    Seat (e.perform i s.scope q).invocation s.frames := by
  refine hseat.congr (perform_node e i s.scope q) ?_ ?_
  · cases q <;> rfl
  · cases q <;> rfl

/-- The end of an invocation leaves its result. -/
theorem finishInvocation_reseats (hseat : Seat i s.frames) (v : Value) (hf : Seated s.frames) :
    e.Stays (Reseats s (.call (.behave i (.finish v)))) (e.finishInvocation s i v) := by
  refine .go (.of_eq ?_) (.inr ⟨hf, fun sig' h => ?_, fun v' i' h => ?_⟩)
  · dsimp only
    split <;> rfl
  · obtain rfl := Parked.turn.inj h
    exact hseat
  · cases h
    exact .inl rfl

theorem behave_reseats (hseat : Seat i s.frames) (script : Script) (hf : Seated s.frames) :
    e.Stays (Reseats s (.call (.behave i script))) (e.behave s i script) := by
  have hsame : e.Welcomes e := .of_eq rfl
  cases script with
  | finish v => exact finishInvocation_reseats hseat v hf
  | fail err => exact failInvocation_reseats hsame i err hf
  | again state =>
    simp only [Engine.behave]
    split
    · exact goes_behave hsame hf hseat _
    · exact failInvocation_reseats hsame i _ hf
  | ask q k =>
    exact goes_behave (t := { s with scope := (e.perform i s.scope q).scope }) (e.welcomes_perform i s.scope q) hf
      (hseat.perform e q) _
  | edit c k => exact goes_behave (Engine.Tended.command e c).strands hf hseat _
  | wait w k => exact awaitFor_reseats hseat w k hf

theorem plain_outputResult (sc : Scope) (node port : String) (ds : Dependencies) :
    (Engine.outputResult sc node port ds).Plain := by
  unfold Engine.outputResult
  split <;> trivial

theorem plain_literalResult (p : Port) (v : Value) : (Engine.literalResult p v).Plain := by
  unfold Engine.literalResult
  split <;> trivial

theorem pullInput_reseats (node port : String) (hf : Seated s.frames) :
    e.Stays (Reseats s sig) (e.pullInput s node port) := by
  have hsame : e.Welcomes e := .of_eq rfl
  have hcases := e.pullInput_cases s node port
  generalize e.pullInput s node port = t at hcases ⊢
  cases hcases with
  | literal => exact goes_plain hsame hf (plain_literalResult _ _)
  | _ => exact goes_plain hsame hf trivial

theorem runForOutput_reseats (n : Node) (k : Kind Behavior) (port : String) (hf : Seated s.frames) :
    e.Stays (Reseats s sig) (e.runForOutput s n k port) := by
  have hcases := e.runForOutput_cases s n k port
  generalize e.runForOutput s n k port = t at hcases ⊢
  cases hcases with
  | hops =>
    refine .park (.of_eq rfl) (.inr ⟨⟨trivial, trivial, hf⟩, fun sig' h => ?_, fun _ _ h => by cases h⟩)
    obtain rfl := Parked.turn.inj h
    exact .hop rfl port s.frames
  | nests => exact goes_invoke (.of_eq rfl) ⟨trivial, hf⟩ (.pull rfl port s.frames)

theorem pullOutput_reseats (node port : String) (hf : Seated s.frames) :
    e.Stays (Reseats s sig) (e.pullOutput s node port) := by
  have hsame : e.Welcomes e := .of_eq rfl
  have hcases := e.pullOutput_cases s node port
  generalize e.pullOutput s node port = t at hcases ⊢
  cases hcases with
  | current => exact goes_plain hsame hf (plain_outputResult _ _ _ _)
  | runs => exact runForOutput_reseats _ _ port hf
  | _ => exact goes_plain hsame hf trivial

theorem continueFrom_reseats (i : Invocation) (v : Value) (rest : List String) (hf : Seated t.frames) :
    e.Stays (Reseats s sig) (e.continueFrom t i v rest) := by
  have hsame : e.Welcomes e := .of_eq rfl
  unfold Engine.continueFrom
  dsimp only
  split
  · split
    · exact goes_plain hsame hf trivial
    · exact goes_plain (.of_eq rfl) hf trivial
  · exact goes_plain hsame hf trivial
  · exact goes_plain hsame hf trivial

theorem resume_reseats (hseat : Seat i t.frames) (w : Wait) (k : Except Raised w.Reply → Script) (r : Result)
    (hf : Seated t.frames) : e.Stays (Reseats s sig) (e.resumeBehavior t i w k r) := by
  have hsame : e.Welcomes e := .of_eq rfl
  unfold Engine.resumeBehavior
  split
  · next v ds =>
    have hmerged : Seat { i with dependencies := i.dependencies.merge ds } t.frames := hseat.congr rfl rfl rfl
    exact goes_behave hsame hf hmerged _
  all_goals exact goes_behave hsame hf hseat _

theorem back_reseats {id : Nat} {sc : Scope} {f : Frame} {fs : List Frame} {r : Result} {b : Book}
    (hsits : Sits b (⟨id, sc, f :: fs⟩, .turn (.back r))) (h : Sedate (⟨id, sc, f :: fs⟩, .turn (.back r)))
    (hinside : ¬∀ g ∈ f :: fs, g.Outer) :
    e.Stays (Reseats ⟨id, sc, f :: fs⟩ (.back r)) (e.back ⟨id, sc, fs⟩ f r) := by
  have hsame : e.Welcomes e := .of_eq rfl
  obtain ⟨hhead, hf⟩ := h.frames
  cases f with
  | behavior i w k =>
    have hseat : Seat i (Strand.mk id sc fs).frames := hhead
    exact resume_reseats hseat w k r hf
  | walk rest =>
    cases r with
    | invoked v i => exact continueFrom_reseats i v rest hf
    | _ => exact goes_plain hsame hf trivial
  | output node port serial =>
    cases r with
    | invoked v i => exact goes_plain (.of_eq rfl) hf (plain_outputResult _ _ _ _)
    | _ => exact goes_plain hsame hf trivial
  | hop =>
    refine .park (.of_eq rfl) (.inr ⟨hf, fun sig' hsig => ?_, fun v i hsig => ?_⟩)
    · obtain rfl := Parked.turn.inj hsig
      cases r with
      | invoked v i =>
        cases h.next _ rfl with
        | hop hmode port fs => exact .pull hmode port fs
      | _ => trivial
    · exact .inr ⟨Parked.turn.inj hsig, fs, rfl⟩
  | trigger node origin => exact .go (.of_eq rfl) (.inl (hsits.outer_below_trigger rfl))
  | value => exact goes_plain hsame hf trivial
  | _ => exact absurd (hsits.outer_of_outer rfl trivial) hinside

theorem raise_reseats {id : Nat} {sc : Scope} {f : Frame} {fs : List Frame} {err : Raised} {b : Book}
    (hsits : Sits b (⟨id, sc, f :: fs⟩, .turn (.raise err))) (h : Seated (f :: fs))
    (hinside : ¬∀ g ∈ f :: fs, g.Outer) :
    e.Stays (Reseats s sig) (e.raise ⟨id, sc, fs⟩ f err) := by
  have hsame : e.Welcomes e := .of_eq rfl
  obtain ⟨hhead, hf⟩ := h
  cases f with
  | behavior i w k =>
    have hseat : Seat i (Strand.mk id sc fs).frames := hhead
    exact goes_behave hsame hf hseat _
  | trigger node origin =>
    have hout := hsits.outer_below_trigger rfl
    cases err with
    | failure f => exact .go (.of_eq rfl) (.inl hout)
    | fault f => exact .go hsame (.inl hout)
    | mute f => exact .go hsame (.inl hout)
  | hop =>
    refine parks_plain (.of_eq rfl) hf fun sig' hsig => ?_
    obtain rfl := Parked.turn.inj hsig
    trivial
  | walk | output | value => exact goes_plain hsame hf trivial
  | _ => exact absurd (hsits.outer_of_outer rfl trivial) hinside

/-- A turn keeps the seats, and leaves a result only where an invocation ends. -/
theorem turn_reseats {b : Book} (hsits : Sits b (s, .turn sig)) (h : Sedate (s, .turn sig))
    (hinside : ¬∀ f ∈ s.frames, f.Outer) : e.Stays (Reseats s sig) (e.turn s sig) := by
  obtain ⟨id, sc, frames⟩ := s
  cases sig with
  | call c =>
    cases c with
    | walk agenda => exact walk_reseats agenda h.frames
    | invoke i =>
      show e.Stays _ (e.invoke _ i)
      unfold Engine.invoke
      split
      · exact goes_behave (.of_eq rfl) h.frames (h.next _ rfl) _
      · exact failInvocation_reseats (.of_eq rfl) i _ h.frames
    | behave i script => exact behave_reseats (h.next _ rfl) script h.frames
    | input node port => exact pullInput_reseats node port h.frames
    | output node port => exact pullOutput_reseats node port h.frames
    | _ => exact absurd (hsits.outer_of_call trivial) hinside
  | back r =>
    cases frames with
    | nil => exact (hinside (by simp)).elim
    | cons f fs => exact back_reseats hsits h hinside
  | raise err =>
    cases frames with
    | nil => exact (hinside (by simp)).elim
    | cons f fs => exact raise_reseats hsits h.frames hinside

end Turns

/-! ## Runs -/

section Runs

variable {run : Nat → Engine.Turn} {n T k : Nat}

theorem Reseats.sedate {s : Strand} {sig : Signal} {x : Strand × Parked} (h : Reseats s sig x) : Sedate x :=
  ⟨h.frames, h.next⟩

theorem sedate_of_born {e : Engine} {s : Strand} {sig : Signal} {x : Strand × Parked} (h : Born e s sig x)
    (hf : ∀ f ∈ s.frames, f.Outer) : Sedate x := by
  cases h with
  | trigger _ =>
    refine ⟨⟨trivial, seated_of_outer hf⟩, fun sig' h => ?_⟩
    obtain rfl := Parked.turn.inj h
    trivial
  | value =>
    refine ⟨⟨trivial, seated_of_outer hf⟩, fun sig' h => ?_⟩
    obtain rfl := Parked.turn.inj h
    trivial

/-- What a strand is taken up with is what it waited with, or about no invocation. -/
theorem plain_unpark (e : Engine) {q : Parked} (hq : ∀ sig, q ≠ .turn sig) : (e.unpark q).1.Plain := by
  cases q with
  | turn sig => exact absurd rfl (hq sig)
  | sleep id => trivial
  | task id | gather id =>
    simp only [Engine.unpark]
    split <;> trivial

theorem Sedate.unpark {s : Strand} {q : Parked} (h : Sedate (s, q)) (e : Engine) :
    Sedate (s, .turn (e.unpark q).1) := by
  refine ⟨h.frames, fun sig hsig => ?_⟩
  obtain rfl := Parked.turn.inj hsig
  by_cases hq : ∀ sig, q ≠ .turn sig
  · exact (plain_unpark e hq).seatedOn _
  · obtain ⟨sig, hsig⟩ := not_forall.mp hq
    obtain rfl := not_not.mp hsig
    exact h.next sig rfl

/-- All along a run, the invocations in the strand of a trigger have their seats. -/
theorem sedate_run (hopens : Opens (run 0)) (hplays : ∀ k < n, Play (run k) (run (k + 1))) (hT : T ≠ 0) (hk : k ≤ n) :
    During T Sedate (run k) := by
  refine during_run (P := fun _ => Sedate) hopens hplays hT ?_ ?_ ?_ ?_ hk
  · intro k hk s sig x hn hnext hborn
    obtain ⟨L, hL⟩ := orderly_run hopens hplays hk.le
    exact sedate_of_born hborn (hborn.outer (hL.placed _ (Engine.Turn.mem_population_of_next hn)).sits)
  · intro k hk s sig hn hsT hinside h
    obtain ⟨L, hL⟩ := orderly_run hopens hplays hk.le
    have hsits := (hL.placed _ (Engine.Turn.mem_population_of_next hn)).sits
    exact (turn_reseats hsits h hinside).mono fun x hx => hx.imp_right Reseats.sedate
  · exact fun k _ _ _ x h => h
  · exact fun k _ s q e h => h.unpark e

end Runs

end Patchbay
