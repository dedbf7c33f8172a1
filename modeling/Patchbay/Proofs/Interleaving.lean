import Mathlib.Data.List.Pairwise
import Mathlib.Logic.Relation
import Patchbay.Engine.Session
import Patchbay.Proofs.Frames

/-!
# Interleavings

Any number of triggers run on one engine, and take turns wherever they wait. A step of an engine is a
turn of the strand that is under way or, when none is, a job of the loop or a request from outside.
Nothing is assumed about the order of jobs or the time between them, so the steps of a session are among
these.

Beside an engine runs a ledger: the book of every trigger. In every state that can be reached each
strand sits with the book of its trigger, no two strands run the same trigger, and no read on a book saw
a version later than the present one.

Contents:
* `Step`, `opening`, `Recorded`: the states that can be reached, with their ledgers.
* `Orderly`: the invariant of a whole engine.

Results:
* `Engine.eq_initial_of_create`, `session_eq_runFor`, `Step.of_advance`: sessions start in such states and
  take such steps.
* `Orderly.step`, `Recorded.orderly`: the invariant is kept by every step, and holds of every state
  that can be reached.
* `Orderly.evolves`, `Orderly.along`: what every step does, and so what any number of steps keep.
-/

namespace Patchbay

/-! ## Steps -/

/-- One step of an engine. -/
inductive Step : Engine.Turn → Engine.Turn → Prop
  /-- the strand that is under way has a turn -/
  | turn {t : Engine.Turn} {s : Strand} {sig : Signal} (h : t.next = some (s, sig)) :
      Step t (t.engine.turn s sig)
  /-- the loop runs a job, with any state of its queue and its timers -/
  | job {t : Engine.Turn} (h : t.next = none) (scheduler : Scheduler Firing Job) (j : Job) :
      Step t ({ t.engine with scheduler := scheduler }.handle j)
  /-- a request comes in -/
  | request {t : Engine.Turn} (h : t.next = none) (r : Request) :
      Step t ({ t.engine with nextStrand := t.engine.nextStrand + 1 }.go
        { id := t.engine.nextStrand, frames := [.session] } (.call (.request r)))

/-- What a session takes is a step. -/
theorem Step.of_advance {t t' : Engine.Turn} (h : Engine.advance t = some t') : Step t t' := by
  unfold Engine.advance at h
  split at h
  · next hn =>
    obtain rfl := Option.some.inj h
    exact .turn hn
  · next hn =>
    split at h
    · simp at h
    · split at h
      · simp at h
      · obtain rfl := Option.some.inj h
        exact .job hn _ _

/-- What is under way goes on before anything else does. -/
theorem Step.eq_turn {t t' : Engine.Turn} (h : Step t t') {s : Strand} {sig : Signal}
    (hn : t.next = some (s, sig)) : t' = t.engine.turn s sig := by
  cases h with
  | turn hn' =>
    obtain ⟨rfl, rfl⟩ := Prod.mk.inj (Option.some.inj (hn'.symm.trans hn))
    rfl
  | job hnone => rw [hn] at hnone; cases hnone
  | request hnone => rw [hn] at hnone; cases hnone

/-- A new engine, with a shortest interval. -/
def Engine.initial (config : Config) (registry : Registry Behavior) (graph : Graph) (shortest : Float) :
    Engine :=
  { config, registry, graph, scheduler := { minInterval := shortest } }

theorem Engine.eq_initial_of_create {config : Config} {registry : Registry Behavior} {graph : Graph}
    {e : Engine} (h : Engine.create config registry graph = .ok e) :
    ∃ shortest, e = Engine.initial config registry graph shortest := by
  simp only [Engine.create, bind, Except.bind, pure, Except.pure] at h
  split at h
  · simp at h
  · next shortest _ => exact ⟨shortest, (Except.ok.inj h).symm⟩

/-- The first state of a session. -/
def opening (e : Engine) (requests : List Request) : Engine.Turn :=
  { e with nextStrand := e.nextStrand + 1, todo := requests }.nextRequest
    { id := e.nextStrand, frames := [] }

theorem session_eq_runFor (e : Engine) (requests : List Request) :
    e.session requests = Engine.runFor Engine.turnBound (opening e requests) := rfl

/-- A session opens with its first request, outside triggers. -/
theorem eq_request_of_mem_opening {config : Config} {registry : Registry Behavior} {graph : Graph}
    {shortest : Float} {requests : List Request} {x : Strand × Parked}
    (hx : x ∈ (opening (.initial config registry graph shortest) requests).population) :
    x.1.scope.trigger = 0 ∧ ∃ r, x.2 = .turn (.call (.request r)) := by
  cases requests with
  | nil => simp [opening, Engine.nextRequest, Engine.Turn.population, Engine.initial] at hx
  | cons r rest =>
    simp only [opening, Engine.nextRequest, Engine.Turn.population, Engine.initial, Engine.go,
      Option.map_some, Option.toList_some, List.append_nil, List.mem_singleton] at hx
    subst hx
    exact ⟨rfl, r, rfl⟩

/-- The books of all triggers. -/
abbrev Ledger := Nat → Book

/-- The ledger after a turn. -/
def Ledger.after (L : Ledger) (t : Engine.Turn) : Ledger :=
  match t.next with
  | some (s, sig) =>
    Function.update L s.scope.trigger ((L s.scope.trigger).after t.engine s sig)
  | none => L

/-- The states that can be reached from a new engine, each with a ledger of how it was reached. -/
inductive Recorded : Engine.Turn → Ledger → Prop
  | start (config : Config) (registry : Registry Behavior) (graph : Graph) (shortest : Float)
      (requests : List Request) :
      Recorded (opening (.initial config registry graph shortest) requests) fun _ => {}
  | step {t t' : Engine.Turn} {L : Ledger} (h : Recorded t L) (hs : Step t t') :
      Recorded t' (L.after t)

/-- A number of steps of a session, with the ledger. -/
def follow : Nat → Engine.Turn × Ledger → Engine.Turn × Ledger
  | 0, x => x
  | n + 1, (t, L) => match Engine.advance t with
    | none => (t, L)
    | some t' => follow n (t', L.after t)

theorem Recorded.follow {t : Engine.Turn} {L : Ledger} (h : Recorded t L) (n : Nat) :
    Recorded (follow n (t, L)).1 (follow n (t, L)).2 := by
  induction n generalizing t L with
  | zero => exact h
  | succ n ih =>
    simp only [Patchbay.follow]
    split
    · exact h
    · next ht => exact ih (h.step (.of_advance ht))

theorem follow_add (m n : Nat) (x : Engine.Turn × Ledger) : follow (m + n) x = follow n (follow m x) := by
  induction m generalizing x with
  | zero => rw [Nat.zero_add, follow]
  | succ m ih =>
    obtain ⟨t, L⟩ := x
    rw [Nat.succ_add, follow, follow]
    cases h : Engine.advance t with
    | some t' => exact ih (t', L.after t)
    | none =>
      cases n with
      | zero => rfl
      | succ n => simp only [follow, h]

/-- One more step of a session that goes on. -/
theorem advance_follow {n : Nat} {x : Engine.Turn × Ledger}
    (h : (Engine.advance (follow n x).1).isSome = true) :
    Engine.advance (follow n x).1 = some (follow (n + 1) x).1 := by
  obtain ⟨t', ht'⟩ := Option.isSome_iff_exists.mp h
  rw [ht', follow_add]
  simp only [follow, ht']

/-- While a strand is under way, a session goes on with its turn. -/
theorem follow_of_next {t : Engine.Turn} {s : Strand} {sig : Signal} (hn : t.next = some (s, sig))
    (L : Ledger) (n : Nat) : follow (n + 1) (t, L) = follow n (t.engine.turn s sig, L.after t) := by
  simp only [follow, Engine.advance, hn]

/-! ## Versions -/

/-- An engine and a scope in which no version is earlier than before. -/
theorem Engine.currentVersion_le {e e' : Engine} {sc sc' : Scope} (hc : e.store.Counted)
    (hw : Variables.Wrote e.store e'.store)
    (hp : ∀ node port, sc.epoch node (.str port) ≤ sc'.epoch node (.str port)) {d : Dependency}
    (hd : d.Textual) : e.currentVersion sc d ≤ e'.currentVersion sc' d := by
  cases d with
  | output node port =>
    obtain ⟨text, rfl⟩ := hd
    exact hp node text
  | oneVariable name => exact Variables.Wrote.versionOf_le hw hc name
  | allVariables => exact Variables.Wrote.version_le hw

theorem Moves.trigger {e : Engine} {sc sc' : Scope} (h : Moves e sc sc') : sc'.trigger = sc.trigger := by
  cases h with
  | keeps h => exact h.trigger
  | _ => rfl

theorem Moves.epoch_le {e : Engine} {sc sc' : Scope} (h : Moves e sc sc') (node port : String) :
    sc.epoch node (.str port) ≤ sc'.epoch node (.str port) := by
  cases h with
  | keeps h => exact h.epochs node port
  | _ => exact le_rfl

/-! ## The invariant -/

/-- How a strand stands in an engine with a ledger; `lo` bounds from below the versions that the reads of
each trigger saw. -/
structure Placed (lo : Nat → Dependency → Nat) (L : Ledger) (e : Engine) (x : Strand × Parked) : Prop where
  sits : Sits (L x.1.scope.trigger) x
  known : x.1.scope.trigger < e.nextTrigger
  within : (L x.1.scope.trigger).Within (lo x.1.scope.trigger) (e.currentVersion x.1.scope)
  lower : ∀ d : Dependency, d.Textual → lo x.1.scope.trigger d ≤ e.currentVersion x.1.scope d

/-- Two strands that are in different triggers, or in none. -/
def Apart (x y : Strand × Parked) : Prop :=
  x.1.scope.trigger = y.1.scope.trigger → x.1.scope.trigger = 0

/-- The invariant of an engine with a ledger. -/
structure Orderly (lo : Nat → Dependency → Nat) (L : Ledger) (t : Engine.Turn) : Prop where
  placed : ∀ x ∈ t.population, Placed lo L t.engine x
  apart : t.population.Pairwise Apart
  blank : ∀ T, T = 0 ∨ t.engine.nextTrigger ≤ T → L T = {}
  low : ∀ T, T = 0 ∨ t.engine.nextTrigger ≤ T → ∀ d, lo T d = 0
  positive : 0 < t.engine.nextTrigger
  counted : t.engine.store.Counted
  parked : ∀ x ∈ t.engine.strands, ¬x.2.StartsExec

theorem Apart.symm {x y : Strand × Parked} (h : Apart x y) : Apart y x := by
  intro heq
  rw [heq]
  exact h heq.symm

instance : Std.Symm Apart := ⟨fun _ _ => Apart.symm⟩

/-- A strand that waits outside triggers is apart from every other. -/
theorem Apart.of_zero {x : Strand × Parked} (h : x.1.scope.trigger = 0) (y : Strand × Parked) :
    Apart x y := fun _ => h

section Strands

variable {lo : Nat → Dependency → Nat} {L : Ledger} {e e' : Engine} {x : Strand × Parked}

/-- A strand outside triggers, with an empty book. -/
theorem Placed.of_zero (hs : Sits {} x) (ht : x.1.scope.trigger = 0) (hL : L 0 = {})
    (hlo : ∀ d, lo 0 d = 0) (hpos : 0 < e.nextTrigger) : Placed lo L e x := by
  refine ⟨by rwa [ht, hL], by rwa [ht], ?_, fun d _ => ?_⟩
  · rw [ht, hL]
    exact .empty _ _
  · rw [ht, hlo]
    exact Nat.zero_le _

/-- A strand that waits while the rest of the engine goes on. -/
theorem Placed.later (h : Placed lo L e x) {L' : Ledger}
    (hL : L' x.1.scope.trigger = L x.1.scope.trigger) (hn : e.nextTrigger ≤ e'.nextTrigger)
    (hc : e.store.Counted) (hw : Variables.Wrote e.store e'.store) : Placed lo L' e' x := by
  have hle : ∀ d : Dependency, d.Textual → e.currentVersion x.1.scope d ≤ e'.currentVersion x.1.scope d :=
    fun d hd => Engine.currentVersion_le hc hw (fun _ _ => le_rfl) hd
  refine ⟨hL ▸ h.sits, h.known.trans_le hn, ?_, fun d hd => (h.lower d hd).trans (hle d hd)⟩
  rw [hL]
  exact h.within.mono hle

/-- Outside triggers a turn leaves the book alone. -/
theorem Sits.after_eq {b : Book} {s : Strand} {sig : Signal} (h : Sits b (s, .turn sig))
    (ht : s.scope.trigger = 0) : b.after e s sig = b := by
  have hframes : ∀ f ∈ s.frames, f.Outer := h.named ht
  obtain ⟨nodes, -, hfits⟩ := h.fits
  cases sig with
  | call c =>
    cases hfits with
    | begins hc _ =>
      cases c with
      | trigger | run | request => rfl
      | _ => exact hc.elim
    | walks hs => exact absurd hframes (hs.not_outer nofun)
    | invokes _ _ hs => exact absurd hframes (hs.not_outer nofun)
    | behaves _ _ hs => exact absurd hframes (hs.not_outer nofun)
    | input hs => exact absurd hframes (hs.not_outer nofun)
    | output hs => exact absurd hframes (hs.not_outer nofun)
  | back r =>
    obtain ⟨id, sc, fs⟩ := s
    cases fs with
    | nil => rfl
    | cons f fs =>
      have hf : f.Outer := hframes f List.mem_cons_self
      cases f <;> first | rfl | exact hf.elim
  | raise err =>
    obtain ⟨id, sc, fs⟩ := s
    cases fs with
    | nil => rfl
    | cons f fs =>
      have hf : f.Outer := hframes f List.mem_cons_self
      cases f <;> first | rfl | exact hf.elim

/-- The signal with which a strand goes on fits where it has waited. -/
theorem Sits.unpark {b : Book} {s : Strand} {p : Parked} (h : Sits b (s, p)) :
    Sits b (s, .turn (e.unpark p).1) := by
  obtain ⟨nodes, hpath, hfits⟩ := h.fits
  refine ⟨⟨nodes, hpath, ?_⟩, h.booked, h.named⟩
  cases p with
  | turn sig => exact hfits
  | sleep id =>
    cases hfits with
    | sleeps hs => exact .woken hs
  | task id =>
    cases hfits with
    | joins hs =>
      simp only [Engine.unpark]
      split
      · exact .answers hs
      · exact .raised hs
      · exact .answers hs
  | gather id =>
    cases hfits with
    | gathers hs =>
      simp only [Engine.unpark]
      split
      · exact .answers hs
      · exact .raised hs
      · exact .answers hs

theorem not_startsExec_unpark {p : Parked} (h : ¬p.StartsExec) : ¬(e.unpark p).1.StartsExec := by
  cases p with
  | turn sig => exact h
  | sleep id => exact fun hs => hs.elim
  | task id =>
    simp only [Engine.unpark]
    split <;> exact fun hs => hs.elim
  | gather id =>
    simp only [Engine.unpark]
    split <;> exact fun hs => hs.elim

/-- To take up a strand again changes nothing but the scheduler. -/
theorem unpark_same (e : Engine) (p : Parked) :
    (e.unpark p).2.strands = e.strands ∧ (e.unpark p).2.store = e.store ∧
      (e.unpark p).2.nextTrigger = e.nextTrigger ∧ (e.unpark p).2.running = e.running ∧
      (e.unpark p).2.trace = e.trace := by
  cases p with
  | turn sig => exact ⟨rfl, rfl, rfl, rfl, rfl⟩
  | sleep id => exact ⟨rfl, rfl, rfl, rfl, rfl⟩
  | task id =>
    simp only [Engine.unpark]
    split <;> exact ⟨rfl, rfl, rfl, rfl, rfl⟩
  | gather id =>
    simp only [Engine.unpark]
    split <;> exact ⟨rfl, rfl, rfl, rfl, rfl⟩

/-- Unless what it waits for has yet to come, the strand that a job resumes is under way. The others wait as
they did. -/
theorem handle_resume (e : Engine) (id : Nat) :
    e.handle (.resume id) = ⟨e, none⟩ ∨ ∃ s p, ∃ e₁ e' : Engine,
      (e.strands.find? fun x => x.1.id == id) = some (s, p) ∧ e.hasCome p = true ∧
      e.handle (.resume id) = e'.go s (e₁.unpark p).1 ∧ e₁.scheduler = e.scheduler ∧
      e'.strands = (e.strands.filter fun x => x.1.id != id) ∧ e'.store = e.store ∧
      e'.nextTrigger = e.nextTrigger ∧ e'.running = e.running ∧ e'.trace = e.trace := by
  cases hfind : e.strands.find? fun x => x.1.id == id with
  | none => exact .inl (by simp only [Engine.handle, hfind])
  | some x =>
    obtain ⟨s, p⟩ := x
    cases hcome : e.hasCome p with
    | false => exact .inl (by simp only [Engine.handle, hfind, hcome, Bool.false_eq_true, if_false])
    | true =>
      let e₁ : Engine := { e with strands := e.strands.filter fun x => x.1.id != id }
      have heq : e.handle (.resume id) = (e₁.unpark p).2.go s (e₁.unpark p).1 := by
        simp only [Engine.handle, hfind, hcome, if_true, e₁]
      exact .inr ⟨s, p, e₁, (e₁.unpark p).2, rfl, hcome, heq, rfl, unpark_same e₁ p⟩

end Strands

theorem Newcomer.not_startsExec {x : Strand × Parked} (h : Newcomer x) : ¬x.2.StartsExec := by
  obtain ⟨c, hc, hp⟩ := h.call
  rw [hp]
  cases c with
  | invoke i => exact hc.elim
  | _ => exact fun hs => hs.elim

/-- An engine is in order when the strand of the step is, the strands that wait are, and the others are
new. -/
theorem Orderly.of_parts {lo : Nat → Dependency → Nat} {L : Ledger} {t : Engine.Turn}
    {own : Option (Strand × Parked)} {news rest : List (Strand × Parked)}
    (hpop : t.population = own.toList ++ (news ++ rest)) (hnews : ∀ x ∈ news, Newcomer x)
    (hown : ∀ x, own = some x → Placed lo L t.engine x ∧ (∀ y ∈ rest, Apart x y) ∧
      (x.2.StartsExec → t.next.isSome = true))
    (hrest : ∀ y ∈ rest, Placed lo L t.engine y ∧ ¬y.2.StartsExec) (hapart : rest.Pairwise Apart)
    (hblank : ∀ T, T = 0 ∨ t.engine.nextTrigger ≤ T → L T = {})
    (hlow : ∀ T, T = 0 ∨ t.engine.nextTrigger ≤ T → ∀ d, lo T d = 0)
    (hpos : 0 < t.engine.nextTrigger) (hcounted : t.engine.store.Counted) : Orderly lo L t := by
  have hzero : ∀ y ∈ news, y.1.scope.trigger = 0 := fun y hy => by rw [(hnews y hy).scope]
  refine ⟨fun y hy => ?_, ?_, hblank, hlow, hpos, hcounted, ?_⟩
  · rw [hpop, List.mem_append, List.mem_append] at hy
    rcases hy with hy | hy | hy
    · exact (hown y (Option.mem_toList.mp hy)).1
    · exact .of_zero (hnews y hy).sits (hzero y hy) (hblank 0 (.inl rfl)) (hlow 0 (.inl rfl)) hpos
    · exact (hrest y hy).1
  · rw [hpop, List.pairwise_append, List.pairwise_append]
    refine ⟨?_, ⟨?_, hapart, fun y hy z _ => .of_zero (hzero y hy) z⟩, fun y hy z hz => ?_⟩
    · cases own with
      | none => exact .nil
      | some y => exact List.pairwise_singleton _ y
    · exact List.pairwise_of_forall_mem_list fun y hy z _ => .of_zero (hzero y hy) z
    · rcases List.mem_append.mp hz with hz | hz
      · exact (Apart.of_zero (hzero z hz) y).symm
      · exact (hown y (Option.mem_toList.mp hy)).2.1 z hz
  · -- the strand of the step is the one under way, unless it is parked and starts nothing
    have hothers : ∀ y ∈ news ++ rest, ¬y.2.StartsExec := by
      intro y hy
      rcases List.mem_append.mp hy with hy | hy
      · exact (hnews y hy).not_startsExec
      · exact (hrest y hy).2
    intro y hy
    cases own with
    | none =>
      refine hothers y ?_
      rw [Option.toList_none, List.nil_append] at hpop
      rw [← hpop]
      exact List.mem_append_right _ hy
    | some x =>
      cases hn : t.next with
      | none =>
        have hmem : y ∈ t.population := List.mem_append_right _ hy
        rw [hpop, List.mem_append] at hmem
        rcases hmem with hmem | hmem
        · intro hstart
          have hsome := (hown y (Option.mem_toList.mp hmem)).2.2 hstart
          rw [hn] at hsome
          exact Bool.false_ne_true hsome
        · exact hothers y hmem
      | some z =>
        simp only [Engine.Turn.population, hn, Option.map_some, Option.toList_some,
          List.singleton_append, List.cons.injEq] at hpop
        exact hothers y (hpop.2 ▸ hy)

/-! ## Turns -/

section Turns

variable {lo : Nat → Dependency → Nat} {L : Ledger} {e e' : Engine} {s : Strand} {sig : Signal}
  {x : Strand × Parked}

/-- The strand that had the turn. -/
theorem Follows.placed (hp : Placed lo L e (s, .turn sig)) (hL : L e.nextTrigger = {})
    (hlo : ∀ d, lo e.nextTrigger d = 0) (hc : e.store.Counted) (hw : Variables.Wrote e.store e'.store)
    (hn : e.nextTrigger ≤ e'.nextTrigger)
    (h : Follows e s.scope ((L s.scope.trigger).after e s sig) e' x) :
    Placed lo (Function.update L s.scope.trigger ((L s.scope.trigger).after e s sig)) e' x := by
  cases h with
  | moves hm hs =>
    have ht : x.1.scope.trigger = s.scope.trigger := hm.trigger
    have hle : ∀ d : Dependency, d.Textual → e.currentVersion s.scope d ≤ e'.currentVersion x.1.scope d :=
      fun d hd => Engine.currentVersion_le hc hw hm.epoch_le hd
    refine ⟨?_, ?_, ?_, fun d hd => ?_⟩
    · rw [ht, Function.update_self]
      exact hs
    · rw [ht]
      exact hp.known.trans_le hn
    · rw [ht, Function.update_self]
      exact (hp.within.after hp.lower sig).mono hle
    · rw [ht]
      exact (hp.lower d hd).trans (hle d hd)
  | fresh ht hlt hs =>
    have hne : x.1.scope.trigger ≠ s.scope.trigger := by
      rw [ht]
      exact hp.known.ne'
    refine ⟨?_, by rwa [ht], ?_, fun d _ => ?_⟩
    · rw [Function.update_of_ne hne, ht, hL]
      exact hs
    · rw [Function.update_of_ne hne, ht, hL]
      exact .empty _ _
    · rw [ht, hlo]
      exact Nat.zero_le _

theorem Follows.apart {b : Book} {y : Strand × Parked} (h : Follows e s.scope b e' x)
    (hy : Apart (s, .turn sig) y) (hk : y.1.scope.trigger < e.nextTrigger) : Apart x y := by
  cases h with
  | moves hm =>
    intro heq
    rw [hm.trigger] at heq ⊢
    exact hy heq
  | fresh ht =>
    intro heq
    omega

/-- A turn of a strand keeps the engine in order. -/
theorem Orderly.turn {t : Engine.Turn} (h : Orderly lo L t) (hn : t.next = some (s, sig)) :
    Orderly lo (L.after t) (t.engine.turn s sig) := by
  have hpop : t.population = (s, .turn sig) :: t.engine.strands := by
    simp [Engine.Turn.population, hn]
  have hplaced := h.placed
  have hapart := h.apart
  rw [hpop] at hplaced hapart
  obtain ⟨hp, hrest⟩ := List.forall_mem_cons.mp hplaced
  obtain ⟨hown, hothers⟩ := List.pairwise_cons.mp hapart
  obtain ⟨own, g⟩ := turn_goes hp.sits (fun y hy => (hp.within.last.kept y hy).1) h.positive
  obtain ⟨news, hpop', hnews⟩ := g.population
  have hL : L.after t = Function.update L s.scope.trigger ((L s.scope.trigger).after t.engine s sig) := by
    simp only [Ledger.after, hn]
  have hzero : L.after t 0 = {} := by
    rw [hL]
    by_cases ht : s.scope.trigger = 0
    · rw [ht, Function.update_self, ← ht, hp.sits.after_eq ht, ht]
      exact h.blank 0 (.inl rfl)
    · rw [Function.update_of_ne (Ne.symm ht)]
      exact h.blank 0 (.inl rfl)
  have hkeep : ∀ y ∈ t.engine.strands, L.after t y.1.scope.trigger = L y.1.scope.trigger := by
    intro y hy
    by_cases ht : y.1.scope.trigger = s.scope.trigger
    · have hs : s.scope.trigger = 0 := hown y hy ht.symm
      rw [ht, hs, hzero, h.blank 0 (.inl rfl)]
    · rw [hL, Function.update_of_ne ht]
  refine .of_parts hpop' hnews (fun x hx => ⟨?_, fun y hy => ?_, fun hs => (g.starts x hx hs).1⟩)
    (fun y hy => ⟨?_, h.parked y hy⟩) hothers (fun T hT => ?_) (fun T hT => ?_) ?_ ?_
  · rw [hL]
    refine (g.follows x hx).placed hp ?_ ?_ h.counted g.store g.nextTrigger
    · exact h.blank _ (.inr le_rfl)
    · exact h.low _ (.inr le_rfl)
  · exact (g.follows x hx).apart (hown y hy) (hrest y hy).known
  · exact (hrest y hy).later (hkeep y hy) g.nextTrigger h.counted g.store
  · rcases hT with rfl | hT
    · exact hzero
    · have hle := g.nextTrigger.trans hT
      rw [hL, Function.update_of_ne (hp.known.trans_le hle).ne']
      exact h.blank T (.inr hle)
  · exact h.low T (hT.imp_right g.nextTrigger.trans)
  · exact h.positive.trans_le g.nextTrigger
  · exact Variables.Wrote.counted g.store h.counted

end Turns

/-! ## Jobs and requests -/

section Jobs

variable {lo : Nat → Dependency → Nat} {L : Ledger} {t : Engine.Turn}

theorem population_of_none (hn : t.next = none) : t.population = t.engine.strands := by
  simp [Engine.Turn.population, hn]

/-- Upkeep between turns keeps the engine in order. -/
theorem Orderly.tended (h : Orderly lo L t) (hn : t.next = none) {e' : Engine} (ht : t.engine.Tended e') :
    Orderly lo L ⟨e', none⟩ := by
  have hplaced := h.placed
  have hapart := h.apart
  rw [population_of_none hn] at hplaced hapart
  have hle : t.engine.nextTrigger ≤ e'.nextTrigger := ht.nextTrigger.ge
  obtain ⟨news, hs, hnews⟩ := ht.strands
  have hpop : (⟨e', none⟩ : Engine.Turn).population = none.toList ++ (news ++ t.engine.strands) := hs
  refine .of_parts hpop hnews (fun x hx => ?_) (fun y hy => ⟨?_, h.parked y hy⟩) hapart (fun T hT => ?_)
    (fun T hT => ?_) ?_ ?_
  · simp at hx
  · exact (hplaced y hy).later rfl hle h.counted ht.store
  · exact h.blank T (hT.imp_right hle.trans)
  · exact h.low T (hT.imp_right hle.trans)
  · exact h.positive.trans_le hle
  · exact Variables.Wrote.counted ht.store h.counted

/-- A strand that has waited is under way again. -/
theorem Orderly.resume (h : Orderly lo L t) (hn : t.next = none) (id : Nat) :
    Orderly lo L (t.engine.handle (.resume id)) := by
  have hplaced := h.placed
  have hapart := h.apart
  rw [population_of_none hn] at hplaced hapart
  rcases handle_resume t.engine id with heq | ⟨s, p, e₁, e', hfind, -, heq, -, hs, hst, hnt, -, -⟩
  · rw [heq]
    exact h.tended hn (.refl _)
  · have hmem := List.mem_of_find?_eq_some hfind
    have hid : s.id = id := by simpa using List.find?_some hfind
    have hle : t.engine.nextTrigger ≤ e'.nextTrigger := hnt.ge
    have hw : Variables.Wrote t.engine.store e'.store := by rw [hst]
    have hsub : ∀ y ∈ e'.strands, y ∈ t.engine.strands ∧ y.1.id ≠ id := by
      intro y hy
      rw [hs] at hy
      simpa using hy
    have hpop : (e'.go s (e₁.unpark p).1).population =
        (some (s, Parked.turn (e₁.unpark p).1)).toList ++ ([] ++ e'.strands) := rfl
    rw [heq]
    refine .of_parts hpop (by simp) (fun x hx => ?_) (fun y hy => ⟨?_, h.parked y (hsub y hy).1⟩) ?_
      (fun T hT => ?_) (fun T hT => ?_) ?_ ?_
    · obtain rfl := Option.some.inj hx
      have hp : Placed lo L e' (s, p) := (hplaced _ hmem).later rfl hle h.counted hw
      refine ⟨⟨hp.sits.unpark, hp.known, hp.within, hp.lower⟩, fun y hy => ?_, fun _ => rfl⟩
      have hne : (s, p) ≠ y := by
        rintro rfl
        exact (hsub _ hy).2 hid
      exact hapart.forall hmem (hsub y hy).1 hne
    · exact (hplaced y (hsub y hy).1).later rfl hle h.counted hw
    · rw [hs]
      exact hapart.filter _
    · exact h.blank T (hT.imp_right hle.trans)
    · exact h.low T (hT.imp_right hle.trans)
    · exact h.positive.trans_le hle
    · exact Variables.Wrote.counted hw h.counted

/-- A job of the loop keeps the engine in order. -/
theorem Orderly.handle (h : Orderly lo L t) (hn : t.next = none) (j : Job) :
    Orderly lo L (t.engine.handle j) := by
  cases j with
  | resume id => exact h.resume hn id
  | timeout id => exact h.tended hn (.soon _ _)
  | fire id => exact h.tended hn (.expire id _)
  | elapse id => exact h.tended hn (.of_eq rfl rfl rfl rfl rfl)
  | discard id => exact h.tended hn (.of_eq rfl rfl rfl rfl rfl)
  | gather id task => exact h.tended hn (.gatherDone _ id task)

/-- A strand for requests, where no other is under way, keeps the engine in order. -/
theorem Orderly.welcome (h : Orderly lo L t) (hn : t.next = none) {e : Engine} (ht : t.engine.Tended e)
    (id : Nat) (r : Request) :
    Orderly lo L (e.go { id := id, frames := [.session] } (.call (.request r))) := by
  have htended := h.tended hn ht
  have hpop : (e.go { id := id, frames := [.session] } (.call (.request r))).population =
      (some (({ id := id, frames := [.session] } : Strand), Parked.turn (.call (.request r)))).toList ++
        ([] ++ e.strands) := rfl
  refine .of_parts hpop (by simp) (fun x hx => ?_) (fun y hy => ⟨htended.placed y hy, htended.parked y hy⟩)
    htended.apart htended.blank htended.low htended.positive htended.counted
  obtain rfl := Option.some.inj hx
  refine ⟨.of_zero (.of_outer rfl (by simp [Frame.Outer]) ⟨.request r, trivial, rfl⟩) rfl ?_ ?_ htended.positive,
    fun y _ => .of_zero rfl y, fun hstart => hstart.elim⟩
  · exact htended.blank 0 (.inl rfl)
  · exact htended.low 0 (.inl rfl)

end Jobs

/-! ## Runs -/

/-- Every step keeps the engine in order. -/
theorem Orderly.step {lo : Nat → Dependency → Nat} {L : Ledger} {t t' : Engine.Turn} (h : Orderly lo L t)
    (hs : Step t t') : Orderly lo (L.after t) t' := by
  cases hs with
  | turn hn => exact h.turn hn
  | job hn scheduler j =>
    have hL : L.after t = L := by simp only [Ledger.after, hn]
    rw [hL]
    have ht : t.engine.Tended { t.engine with scheduler := scheduler } := .of_eq rfl rfl rfl rfl rfl
    exact (h.tended hn ht).handle rfl j
  | request hn r =>
    have hL : L.after t = L := by simp only [Ledger.after, hn]
    rw [hL]
    have ht : t.engine.Tended { t.engine with nextStrand := t.engine.nextStrand + 1 } :=
      .of_eq rfl rfl rfl rfl rfl
    exact h.welcome hn ht _ r

/-- An engine without strands is in order. -/
theorem Orderly.of_empty {e : Engine} (hs : e.strands = []) (hn : 0 < e.nextTrigger)
    (hc : e.store.Counted) : Orderly (fun _ _ => 0) (fun _ => {}) ⟨e, none⟩ := by
  have hpop : (⟨e, none⟩ : Engine.Turn).population = [] := hs
  refine ⟨fun x hx => ?_, ?_, fun _ _ => rfl, fun _ _ _ => rfl, hn, hc, ?_⟩
  · rw [hpop] at hx
    simp at hx
  · rw [hpop]
    exact .nil
  · rw [hs]
    simp

theorem Recorded.orderly {t : Engine.Turn} {L : Ledger} (h : Recorded t L) :
    Orderly (fun _ _ => 0) L t := by
  induction h with
  | start config registry graph shortest requests =>
    cases requests with
    | nil => exact .of_empty rfl Nat.one_pos (.initial [])
    | cons r rest => exact (Orderly.of_empty rfl Nat.one_pos (.initial [])).welcome rfl (.refl _) _ r
  | step _ hs ih => exact ih.step hs

/-! ## What a step does -/

/-- Whether the strand under way is about to start a node, or reaches one by control flow, and what
observers are then told. -/
def Engine.Turn.Starts (t : Engine.Turn) (n : Notice) : Prop :=
  ∃ s sig, t.next = some (s, sig) ∧ (Announces (s, .turn sig) n ∨ Reaches t.engine s sig n)

/-- Whether the strand under way has a request to run something. -/
def Engine.Turn.BeginsRun (t : Engine.Turn) : Prop := ∃ s sig, t.next = some (s, sig) ∧ sig.BeginsRun

/-- What a step does to the strands, the variables, the flag and what observers are told. -/
structure Evolves (t t' : Engine.Turn) : Prop where
  store : Variables.Wrote t.engine.store t'.engine.store
  nextTrigger : t.engine.nextTrigger ≤ t'.engine.nextTrigger
  strands : ∀ x ∈ t'.population, x.1.scope.trigger = 0 ∨ x.1.scope.trigger = t.engine.nextTrigger ∨
    ∃ y ∈ t.population, Moves t.engine y.1.scope x.1.scope
  running : t'.engine.running = true → t.engine.running = true ∨ t.BeginsRun
  trace : ∃ added, t'.engine.trace.toList = t.engine.trace.toList ++ added ∧
    ∀ n ∈ added, n.StartsExec → t.Starts n
  starts : ∀ x ∈ t'.population, ∀ n, Announces x n → n.StartsExec → t'.engine.running = true ∧ t.Starts n

theorem Announces.startsExec {x : Strand × Parked} {n : Notice} (h : Announces x n)
    (hn : n.StartsExec) : x.2.StartsExec := by
  obtain ⟨s, p⟩ := x
  cases p with
  | turn sig =>
    cases sig with
    | call c =>
      cases c with
      | invoke i =>
        have heq : n = .nodeStarted s.scope.trigger i.node i.kind.id i.mode := h
        show i.mode = .exec
        cases hm : i.mode with
        | exec => rfl
        | pull =>
          rw [heq, hm] at hn
          exact hn.elim
      | _ => exact h.elim
    | _ => exact h.elim
  | _ => exact h.elim

section Evolution

variable {lo : Nat → Dependency → Nat} {L : Ledger} {t : Engine.Turn}

theorem Orderly.evolves_turn (h : Orderly lo L t) {s : Strand} {sig : Signal} (hn : t.next = some (s, sig)) :
    Evolves t (t.engine.turn s sig) := by
  have hpop : t.population = (s, .turn sig) :: t.engine.strands := by
    simp [Engine.Turn.population, hn]
  have hp := h.placed (s, .turn sig) (by rw [hpop]; exact List.mem_cons_self)
  obtain ⟨own, g⟩ := turn_goes hp.sits (fun y hy => (hp.within.last.kept y hy).1) h.positive
  obtain ⟨news, hpop', hnews⟩ := g.population
  obtain ⟨added, htrace, hadded⟩ := g.trace
  refine ⟨g.store, g.nextTrigger, fun x hx => ?_, fun hr => (g.running hr).imp_right fun hb => ?_,
    ⟨added, htrace, fun n hm hs => ?_⟩, fun x hx n ha hs => ?_⟩
  · rw [hpop', List.mem_append, List.mem_append] at hx
    rcases hx with hx | hx | hx
    · cases g.follows x (Option.mem_toList.mp hx) with
      | moves hm => exact .inr (.inr ⟨_, by rw [hpop]; exact List.mem_cons_self, hm⟩)
      | fresh ht => exact .inr (.inl ht)
    · exact .inl (by rw [(hnews x hx).scope])
    · exact .inr (.inr ⟨x, by rw [hpop]; exact List.mem_cons_of_mem _ hx, .keeps (.refl _)⟩)
  · exact ⟨s, sig, hn, hb⟩
  · exact ⟨s, sig, hn, hadded n hm hs⟩
  · rw [hpop', List.mem_append, List.mem_append] at hx
    rcases hx with hx | hx | hx
    · obtain ⟨-, hrun, hann⟩ := g.starts x (Option.mem_toList.mp hx) (ha.startsExec hs)
      exact ⟨hrun, s, sig, hn, hann n ha⟩
    · exact absurd (ha.startsExec hs) (hnews x hx).not_startsExec
    · exact absurd (ha.startsExec hs) (h.parked x hx)

/-- A step between turns, which leaves the scopes of all strands alone and starts nothing. -/
theorem Evolves.of_idle (hn : t.next = none) {t' : Engine.Turn}
    (hw : Variables.Wrote t.engine.store t'.engine.store)
    (hnt : t.engine.nextTrigger ≤ t'.engine.nextTrigger)
    (hr : t'.engine.running = true → t.engine.running = true)
    (htr : ∃ added, t'.engine.trace.toList = t.engine.trace.toList ++ added ∧ ∀ n ∈ added, ¬n.StartsExec)
    (hs : ∀ x ∈ t'.population, (x.1.scope.trigger = 0 ∨ ∃ y ∈ t.engine.strands, x.1.scope = y.1.scope) ∧
      ¬x.2.StartsExec) : Evolves t t' := by
  obtain ⟨added, htrace, hadded⟩ := htr
  refine ⟨hw, hnt, fun x hm => ?_, fun h => .inl (hr h), ⟨added, htrace, fun n hm h => ?_⟩,
    fun x hm n ha h => ?_⟩
  · rcases (hs x hm).1 with h | ⟨y, hy, heq⟩
    · exact .inl h
    · refine .inr (.inr ⟨y, ?_, .keeps (heq ▸ .refl _)⟩)
      rw [population_of_none hn]
      exact hy
  · exact absurd h (hadded n hm)
  · exact absurd (ha.startsExec h) (hs x hm).2

theorem Orderly.evolves_tended (h : Orderly lo L t) (hn : t.next = none) {e : Engine}
    (ht : t.engine.Tended e) : Evolves t ⟨e, none⟩ := by
  obtain ⟨news, hs, hnews⟩ := ht.strands
  refine .of_idle hn ht.store ht.nextTrigger.ge ht.running ht.trace fun x hx => ?_
  have hmem : x ∈ e.strands := hx
  rw [hs, List.mem_append] at hmem
  rcases hmem with hmem | hmem
  · exact ⟨.inl (by rw [(hnews x hmem).scope]), (hnews x hmem).not_startsExec⟩
  · exact ⟨.inr ⟨x, hmem, rfl⟩, h.parked x hmem⟩

theorem Orderly.evolves_resume (h : Orderly lo L t) (hn : t.next = none) {e : Engine}
    (ht : t.engine.Tended e) (hsame : e.strands = t.engine.strands) (id : Nat) :
    Evolves t (e.handle (.resume id)) := by
  rcases handle_resume e id with heq | ⟨s, p, e₁, e', hfind, -, heq, -, hs, hst, hnt, hrun, htr⟩
  · rw [heq]
    exact h.evolves_tended hn ht
  · have hmem := List.mem_of_find?_eq_some hfind
    rw [hsame] at hmem
    rw [heq]
    refine .of_idle hn ?_ ?_ ?_ ?_ fun x hx => ?_
    · rw [Engine.go, hst]
      exact ht.store
    · rw [Engine.go, hnt]
      exact ht.nextTrigger.ge
    · rw [Engine.go, hrun]
      exact ht.running
    · rw [Engine.go, htr]
      exact ht.trace
    · rcases List.mem_cons.mp hx with rfl | hx
      · exact ⟨.inr ⟨_, hmem, rfl⟩, not_startsExec_unpark (h.parked _ hmem)⟩
      · have hold : x ∈ t.engine.strands := by
          rw [Engine.go, hs, hsame] at hx
          exact List.mem_of_mem_filter hx
        exact ⟨.inr ⟨x, hold, rfl⟩, h.parked x hold⟩

/-- What every step does. -/
theorem Orderly.evolves (h : Orderly lo L t) {t' : Engine.Turn} (hs : Step t t') : Evolves t t' := by
  cases hs with
  | turn hn => exact h.evolves_turn hn
  | job hn scheduler j =>
    have ht : t.engine.Tended { t.engine with scheduler := scheduler } := .of_eq rfl rfl rfl rfl rfl
    cases j with
    | resume id => exact h.evolves_resume hn ht rfl id
    | timeout id => exact h.evolves_tended hn (ht.trans (.soon _ _))
    | fire id => exact h.evolves_tended hn (ht.trans (.expire id _))
    | elapse id => exact h.evolves_tended hn (.of_eq rfl rfl rfl rfl rfl)
    | discard id => exact h.evolves_tended hn (.of_eq rfl rfl rfl rfl rfl)
    | gather id task => exact h.evolves_tended hn (ht.trans (.gatherDone _ id task))
  | request hn r =>
    refine .of_idle hn .refl le_rfl id ⟨[], by simp [Engine.go], by simp⟩ fun x hx => ?_
    rcases List.mem_cons.mp hx with rfl | hx
    · exact ⟨.inl rfl, fun hs => hs.elim⟩
    · exact ⟨.inr ⟨x, hx, rfl⟩, h.parked x hx⟩

end Evolution

/-- Steps one after another. -/
abbrev Steps : Engine.Turn → Engine.Turn → Prop := Relation.ReflTransGen Step

theorem steps_follow (n : Nat) (t : Engine.Turn) (L : Ledger) : Steps t (follow n (t, L)).1 := by
  induction n generalizing t L with
  | zero => exact .refl
  | succ n ih =>
    rw [follow]
    split
    · exact .refl
    · next t' ht => exact (ih t' (L.after t)).head (.of_advance ht)

/-- What holds at first, and is kept by every step of an engine in order, holds all along. -/
theorem Orderly.along {lo : Nat → Dependency → Nat} {L : Ledger} {t t' : Engine.Turn} (h : Orderly lo L t)
    (hs : Steps t t') {P : Engine.Turn → Prop} (hfirst : P t)
    (hstep : ∀ {u u' : Engine.Turn} {L' : Ledger}, Steps t u → Orderly lo L' u → Step u u' → P u → P u') :
    P t' ∧ ∃ L', Orderly lo L' t' := by
  induction hs with
  | refl => exact ⟨hfirst, L, h⟩
  | tail hbefore hlast ih =>
    obtain ⟨hP, L', h'⟩ := ih
    exact ⟨hstep hbefore h' hlast hP, L'.after _, h'.step hlast⟩

/-- An engine in order stays so. -/
theorem Orderly.steps {lo : Nat → Dependency → Nat} {L : Ledger} {t t' : Engine.Turn} (h : Orderly lo L t)
    (hs : Steps t t') : ∃ L', Orderly lo L' t' :=
  (h.along hs (P := fun _ => True) trivial fun _ _ _ => id).2

end Patchbay
