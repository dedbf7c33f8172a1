import Patchbay.Engine.Turn
import Patchbay.Proofs.Scopes

/-!
# What invocations have read

An engine keeps, for each invocation, one version of each thing it has read. To speak of every single
read, a book is kept beside a trigger: an account for each invocation under way, one for each node that
is cached, and one for the value that is being handed on. An account lists all reads of an invocation,
with the versions they saw: its own, and those of the nodes whose values it pulled. Reads of a pull that
failed are listed apart, for the invocation goes on without noting them.

Contents:
* `Account`, `Book`, `Book.after`: the book after a turn of the strand.
* `Account.Covered`: the notes of an invocation, as far as they go.

Results:
* `Book.Within.after`: every read on a book saw a version that is not later than the present one.
-/

namespace Patchbay

/-- All reads of an invocation, with the versions they saw. -/
structure Account where
  /-- its own, and those of pulls that succeeded -/
  kept : Dependencies := []
  /-- those of pulls that failed -/
  lost : Dependencies := []

/-- What the invocations of a trigger have read. -/
structure Book where
  /-- the invocations under way, innermost first -/
  running : List Account := []
  /-- what the value or error that is handed on was computed from -/
  last : Account := {}
  /-- the invocations that the outputs of data-only nodes are from -/
  cached : String → Account := fun _ => {}

namespace Book

/-- An invocation begins. -/
def push (b : Book) : Book := { b with running := {} :: b.running, last := {} }

/-- Something is handed on. -/
def hand (b : Book) (a : Account) : Book := { b with last := a }

/-- The innermost invocation reads. -/
def onTop (b : Book) (f : Account → Account) : Book :=
  { b with running := match b.running with
    | [] => []
    | a :: rest => f a :: rest }

/-- The innermost invocation reads something at a version. -/
def note (b : Book) (d : Dependency) (version : Nat) : Book :=
  b.onTop fun a => { a with kept := (d, version) :: a.kept }

/-- The innermost invocation has pulled a value. -/
def gain (b : Book) : Book :=
  (b.onTop fun a => { kept := b.last.kept ++ a.kept, lost := b.last.lost ++ a.lost }).hand {}

/-- A pull of the innermost invocation has failed. -/
def lose (b : Book) : Book :=
  (b.onTop fun a => { a with lost := b.last.kept ++ b.last.lost ++ a.lost }).hand {}

/-- The innermost invocation ends. -/
def pop (b : Book) : Book :=
  { b with running := b.running.tail, last := b.running.headD {} }

/-- The innermost invocation ends, and its outputs are stored for a node. -/
def store (b : Book) (node : String) : Book :=
  { b.pop with cached := fun n => if n = node then b.pop.last else b.cached n }

/-- The book after an output is pulled. -/
def afterOutput (b : Book) (e : Engine) (sc : Scope) (node port : String) : Book :=
  match e.nodeWithKind node with
  | .error _ => b.hand {}
  | .ok (_, k) =>
    if (k.outputPort port).isNone then b.hand {}
    else if !k.dataOnly then
      b.hand { kept := [(.output node (.str port), sc.epoch node (.str port))] }
    else match (sc.cached? node).filter (e.stillCurrent sc) with
      | some _ => b.hand (b.cached node)
      | none => if sc.isResolving node || e.atDepthBound sc then b.hand {} else b.push

/-- The book after a step of a behaviour. -/
def afterScript (b : Book) (e : Engine) (i : Invocation) : Script → Book
  | .ask (.readVariable name) _ => b.note (.oneVariable name) (e.store.versionOf name)
  | .ask .readVariables _ => b.note .allVariables e.store.version
  | .fail _ => b.pop
  | .again _ => if i.kind.behavior.isNone then b.pop else b
  | _ => b

/-- The book after a result reaches a frame. -/
def afterBack (b : Book) : Frame → Result → Book
  | .behavior _ (.pull _) _, .pulled _ _ => b.gain
  | .output node _ _, .invoked _ _ => b.store node
  | .walk _, .invoked _ _ => b.pop
  | _, _ => b

/-- The book of a trigger after a turn of its strand. -/
def after (b : Book) (e : Engine) (s : Strand) (sig : Signal) : Book :=
  match sig, s.frames with
  | .call (.walk (node :: _)), _ => match e.running, e.nodeWithKind node with
    | true, .ok (_, k) => if k.behavior.isSome then b.push else b
    | _, _ => b
  | .call (.invoke i), _ => if i.kind.behavior.isNone then b.pop else b
  | .call (.behave i script), _ => b.afterScript e i script
  | .call (.input _ _), _ => b.hand {}
  | .call (.output node port), _ => b.afterOutput e s.scope node port
  | .back r, f :: _ => b.afterBack f r
  | .raise _, .behavior _ (.pull _) _ :: _ => b.lose
  | _, _ => b

end Book

/-! ## Notes -/

/-- How far the notes of an invocation cover its account: each note is a read, and everything that was
read is noted, at some version. -/
structure Account.Covered (a : Account) (ds : Dependencies) : Prop where
  kept : ∀ x ∈ ds, x ∈ a.kept
  keys : ∀ x ∈ a.kept, ∃ u, (x.1, u) ∈ ds

namespace Account

theorem Covered.empty (lost : Dependencies) : Covered { lost := lost } [] :=
  ⟨by simp, by simp⟩

theorem Covered.lost {a : Account} {ds : Dependencies} (h : a.Covered ds) (lost : Dependencies) :
    Covered { a with lost := lost } ds :=
  ⟨h.kept, h.keys⟩

theorem Covered.note {a : Account} {ds : Dependencies} (h : a.Covered ds) {d : Dependency}
    (hd : d.Textual) (version : Nat) :
    Covered { a with kept := (d, version) :: a.kept } (ds.note d version) := by
  refine ⟨fun x hx => ?_, fun x hx => ?_⟩
  · rcases Dependencies.mem_note hd hx with rfl | hx
    · exact List.mem_cons_self
    · exact List.mem_cons_of_mem _ (h.kept x hx)
  · rcases List.mem_cons.mp hx with rfl | hx
    · exact ⟨version, Dependencies.self_mem_note version hd⟩
    · obtain ⟨u, hu⟩ := h.keys x hx
      exact Dependencies.key_mem_note (x := (x.1, u)) d version hu

theorem Covered.merge {a a' : Account} {ds ds' : Dependencies} (h : a.Covered ds) (h' : a'.Covered ds')
    (ht : ∀ x ∈ ds', x.1.Textual) (lost : Dependencies) :
    Covered { kept := a'.kept ++ a.kept, lost := lost } (ds.merge ds') := by
  refine ⟨fun x hx => ?_, fun x hx => ?_⟩
  · rcases Dependencies.mem_merge ht hx with hx | hx
    · exact List.mem_append_right _ (h.kept x hx)
    · exact List.mem_append_left _ (h'.kept x hx)
  · rcases List.mem_append.mp hx with hx | hx
    · obtain ⟨u, hu⟩ := h'.keys x hx
      exact Dependencies.key_mem_merge_right (x := (x.1, u)) ds (ht (x.1, u) hu) hu
    · obtain ⟨u, hu⟩ := h.keys x hx
      exact Dependencies.key_mem_merge_left (x := (x.1, u)) ds' hu

end Account

/-! ## Versions that reads saw -/

/-- Whether everything noted is named by texts and was seen at versions between two bounds. -/
def Dependencies.Within (lo hi : Dependency → Nat) (ds : Dependencies) : Prop :=
  ∀ x ∈ ds, x.1.Textual ∧ lo x.1 ≤ x.2 ∧ x.2 ≤ hi x.1

theorem Dependencies.Within.mono {lo hi hi' : Dependency → Nat} {ds : Dependencies} (h : ds.Within lo hi)
    (hle : ∀ d : Dependency, d.Textual → hi d ≤ hi' d) : ds.Within lo hi' := by
  intro d hd
  obtain ⟨ht, hlo, hhi⟩ := h d hd
  exact ⟨ht, hlo, hhi.trans (hle d.1 ht)⟩

theorem Dependencies.Within.append {lo hi : Dependency → Nat} {ds es : Dependencies}
    (h : ds.Within lo hi) (h' : es.Within lo hi) : Dependencies.Within lo hi (ds ++ es) := by
  intro x hx
  exact (List.mem_append.mp hx).elim (h x) (h' x)

/-- Whether all reads of an account saw versions between two bounds. -/
structure Account.Within (lo hi : Dependency → Nat) (a : Account) : Prop where
  kept : a.kept.Within lo hi
  lost : a.lost.Within lo hi

theorem Account.Within.empty (lo hi : Dependency → Nat) : Account.Within lo hi {} :=
  ⟨fun x hx => by simp at hx, fun x hx => by simp at hx⟩

/-- Whether all reads on a book saw versions between two bounds. -/
structure Book.Within (lo hi : Dependency → Nat) (b : Book) : Prop where
  running : ∀ a ∈ b.running, a.Within lo hi
  last : b.last.Within lo hi
  cached : ∀ node, (b.cached node).Within lo hi

namespace Book.Within

variable {lo hi : Dependency → Nat} {b : Book}

theorem empty (lo hi : Dependency → Nat) : Book.Within lo hi {} :=
  ⟨fun a ha => by simp at ha, .empty lo hi, fun _ => .empty lo hi⟩

theorem mono {hi' : Dependency → Nat} (h : b.Within lo hi)
    (hle : ∀ d : Dependency, d.Textual → hi d ≤ hi' d) : b.Within lo hi' := by
  have ha : ∀ {a : Account}, a.Within lo hi → a.Within lo hi' :=
    fun h => ⟨h.kept.mono hle, h.lost.mono hle⟩
  exact ⟨fun a hm => ha (h.running a hm), ha h.last, fun node => ha (h.cached node)⟩

theorem push (h : b.Within lo hi) : b.push.Within lo hi := by
  refine ⟨fun a ha => ?_, .empty lo hi, h.cached⟩
  rcases List.mem_cons.mp ha with rfl | ha
  · exact .empty lo hi
  · exact h.running a ha

theorem hand {a : Account} (h : b.Within lo hi) (ha : a.Within lo hi) : (b.hand a).Within lo hi :=
  ⟨h.running, ha, h.cached⟩

theorem onTop {f : Account → Account} (h : b.Within lo hi)
    (hf : ∀ a, a.Within lo hi → (f a).Within lo hi) : (b.onTop f).Within lo hi := by
  refine ⟨fun a ha => ?_, h.last, h.cached⟩
  cases hb : b.running with
  | nil => simp [Book.onTop, hb] at ha
  | cons top rest =>
    simp only [Book.onTop, hb] at ha
    rcases List.mem_cons.mp ha with rfl | ha
    · exact hf top (h.running top (by rw [hb]; exact List.mem_cons_self))
    · exact h.running a (by rw [hb]; exact List.mem_cons_of_mem _ ha)

theorem note (h : b.Within lo hi) {d : Dependency} (hd : d.Textual) (hlo : lo d ≤ hi d) :
    (b.note d (hi d)).Within lo hi := by
  refine h.onTop fun a ha => ⟨fun x hx => ?_, ha.lost⟩
  rcases List.mem_cons.mp hx with rfl | hx
  · exact ⟨hd, hlo, le_rfl⟩
  · exact ha.kept x hx

theorem gain (h : b.Within lo hi) : b.gain.Within lo hi :=
  (h.onTop fun _ ha => ⟨h.last.kept.append ha.kept, h.last.lost.append ha.lost⟩).hand (.empty lo hi)

theorem lose (h : b.Within lo hi) : b.lose.Within lo hi :=
  (h.onTop (f := fun a => { a with lost := b.last.kept ++ b.last.lost ++ a.lost }) fun _ ha =>
    ⟨ha.kept, (h.last.kept.append h.last.lost).append ha.lost⟩).hand (.empty lo hi)

theorem top (h : b.Within lo hi) : (b.running.headD {}).Within lo hi := by
  cases hb : b.running with
  | nil => exact .empty lo hi
  | cons a rest => exact h.running a (by rw [hb]; exact List.mem_cons_self)

theorem pop (h : b.Within lo hi) : b.pop.Within lo hi :=
  ⟨fun a ha => h.running a (List.mem_of_mem_tail ha), h.top, h.cached⟩

theorem store (h : b.Within lo hi) (node : String) : (b.store node).Within lo hi := by
  refine ⟨h.pop.running, h.pop.last, fun other => ?_⟩
  simp only [Book.store]
  split
  · exact h.top
  · exact h.cached other

/-- Reads see the present versions. -/
theorem after {e : Engine} {s : Strand} (h : b.Within lo (e.currentVersion s.scope))
    (hlo : ∀ d : Dependency, d.Textual → lo d ≤ e.currentVersion s.scope d) (sig : Signal) :
    (b.after e s sig).Within lo (e.currentVersion s.scope) := by
  have hempty : (b.hand {}).Within lo (e.currentVersion s.scope) := h.hand (.empty _ _)
  unfold Book.after
  split
  · split
    · split
      · exact h.push
      · exact h
    · exact h
  · split
    · exact h.pop
    · exact h
  · next i script =>
    -- of what a script does, only its reads of variables are noted
    unfold Book.afterScript
    split
    · exact h.note (d := .oneVariable _) trivial (hlo _ trivial)
    · exact h.note (d := .allVariables) trivial (hlo _ trivial)
    · exact h.pop
    · split
      · exact h.pop
      · exact h
    · exact h
  · exact hempty
  · next node port =>
    unfold Book.afterOutput
    split
    · exact hempty
    · split
      · exact hempty
      · split
        · refine h.hand ⟨fun x hx => ?_, fun x hx => by simp at hx⟩
          rw [List.mem_singleton.mp hx]
          exact ⟨⟨port, rfl⟩, hlo _ ⟨port, rfl⟩, le_rfl⟩
        · split
          · exact h.hand (h.cached node)
          · split
            · exact hempty
            · exact h.push
  · unfold Book.afterBack
    split
    · exact h.gain
    · exact h.store _
    · exact h.pop
    · exact h
  · exact h.lose
  · exact h

end Book.Within

end Patchbay
