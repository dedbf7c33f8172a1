import Patchbay.Proofs.Rosters

/-!
# Tasks that are waited for

A gather waits for several tasks. Each of them has a callback for the gather until it is done, and then the loop
has a job that tells the gather; a callback becomes a job and a job is run once, so the gather hears of each task
exactly once.

Contents:
* `Engine.outcomeOf`, `Engine.owes`, `Engine.tells`: how far a task has come, and what a gather has yet to hear
  of it.
* `Engine.Attends`: a change in which nothing is lost that a gather has yet to hear of.
* `Engine.Calls`, `Engine.Hears`: callbacks of tasks, and what they do to a gather.

Results:
* `Passes.attends`, `handle_attends`: every turn, and every job but those that tell a gather.
* `gather?_gatherDone`: those that do.
-/

namespace Patchbay

deriving instance DecidableEq for Callback

namespace Engine

/-! ## What a gather has yet to hear -/

/-- What a task ended with. -/
def outcomeOf (e : Engine) (m : Nat) : Option (Except Raised Response) := (e.task? m).bind Task.outcome

/-- How often a task has still to tell a gather that it is done. -/
def owes (e : Engine) (g m : Nat) : Nat := ((e.task? m).map fun w => w.callbacks.count (.gather g)).getD 0

/-- How often a gather is about to be told that a task is done. -/
def tells (e : Engine) (g m : Nat) : Nat := e.scheduler.loop.pending (.gather g m)

/-- The gather with an id. -/
def gather? (e : Engine) (g : Nat) : Option Gather := e.gathers.find? fun x => x.id == g

/-- Whether a gather waits for a task as it did. -/
structure Minds (e e' : Engine) (g m : Nat) : Prop where
  outcome : e'.outcomeOf m = e.outcomeOf m
  owes : e'.owes g m = e.owes g m
  tells : e'.tells g m = e.tells g m

/-- A change in which nothing is lost that somebody waits for. Gathers may be added, and the task `k` may be
done by it: what it owed is then told. -/
structure Attends (e e' : Engine) (k : Option Nat) : Prop where
  nextStrand : e.nextStrand ≤ e'.nextStrand
  tasks : (∀ w ∈ e.tasks, w.id < e.nextStrand) → ∀ w ∈ e'.tasks, w.id < e'.nextStrand
  gathers : ∃ news, e'.gathers = e.gathers ++ news ∧
    ∀ x ∈ news, e.gathers.length ≤ x.id ∧ x.id < e'.gathers.length
  minds : e.scheduler.Sound → ∀ g m, g < e.gathers.length ∨ e'.gathers.length ≤ g → some m ≠ k → e.Minds e' g m
  total : e.scheduler.Sound → ∀ g m, g < e.gathers.length ∨ e'.gathers.length ≤ g →
    e'.owes g m + e'.tells g m = e.owes g m + e.tells g m
  resumes : e.scheduler.Sound → ∀ id, e.scheduler.loop.pending (.resume id) ≤ e'.scheduler.loop.pending (.resume id)
  sound : e.scheduler.Sound → e'.scheduler.Sound

variable {e e' e'' : Engine}

namespace Minds

variable {g m : Nat}

theorem refl (e : Engine) : e.Minds e g m := ⟨rfl, rfl, rfl⟩

theorem trans (h : e.Minds e' g m) (h' : e'.Minds e'' g m) : e.Minds e'' g m :=
  ⟨h'.outcome.trans h.outcome, h'.owes.trans h.owes, h'.tells.trans h.tells⟩

end Minds

namespace Attends

/-- A change in which no task is done. -/
theorem of_minds {k : Option Nat} (hn : e.nextStrand ≤ e'.nextStrand)
    (ht : (∀ w ∈ e.tasks, w.id < e.nextStrand) → ∀ w ∈ e'.tasks, w.id < e'.nextStrand)
    (hg : ∃ news, e'.gathers = e.gathers ++ news ∧
      ∀ x ∈ news, e.gathers.length ≤ x.id ∧ x.id < e'.gathers.length)
    (hm : e.scheduler.Sound → ∀ g m, g < e.gathers.length ∨ e'.gathers.length ≤ g → e.Minds e' g m)
    (hr : e.scheduler.Sound → ∀ id, e.scheduler.loop.pending (.resume id) ≤ e'.scheduler.loop.pending (.resume id))
    (hs : e.scheduler.Sound → e'.scheduler.Sound) : e.Attends e' k := by
  refine ⟨hn, ht, hg, fun hsound g m hgm _ => hm hsound g m hgm, fun hsound g m hgm => ?_, hr, hs⟩
  have h := hm hsound g m hgm
  rw [h.owes, h.tells]

theorem of_hires {k : Option Nat} (h : e.Hires e') : e.Attends e' k := by
  obtain ⟨news, htasks, hnews⟩ := h.tasks
  refine of_minds h.nextStrand (fun ht w hw => ?_) ⟨[], h.gathers.trans (List.append_nil _).symm,
    fun _ hx => (nomatch hx)⟩ (fun hs g m _ => ?_) (fun hs _ => h.scheduler.waits hs _ rfl)
    h.scheduler.sound
  · rw [htasks] at hw
    rcases List.mem_append.mp hw with hw | hw
    · exact (ht w hw).trans_le h.nextStrand
    · exact (hnews w hw).2.1
  · have hfind : e'.task? m = (e.task? m).or (news.find? fun w => w.id == m) := by
      rw [task?, htasks, List.find?_append]
      rfl
    have htells : e'.tells g m = e.tells g m := h.scheduler.gathers hs g m
    cases hold : e.task? m with
    | some w =>
      rw [hold, Option.some_or] at hfind
      exact ⟨by rw [outcomeOf, outcomeOf, hfind, hold], by rw [owes, owes, hfind, hold], htells⟩
    | none =>
      rw [hold, Option.none_or] at hfind
      cases hnew : news.find? fun w => w.id == m with
      | none =>
        rw [hnew] at hfind
        exact ⟨by rw [outcomeOf, outcomeOf, hfind, hold], by rw [owes, owes, hfind, hold], htells⟩
      | some w =>
        rw [hnew] at hfind
        obtain ⟨-, -, hout, hcalls⟩ := hnews w (List.mem_of_find?_eq_some hnew)
        refine ⟨?_, ?_, htells⟩
        · rw [outcomeOf, outcomeOf, hfind, hold]
          exact hout
        · rw [owes, owes, hfind, hold]
          exact List.count_eq_zero.mpr (hcalls g)

theorem refl (e : Engine) {k : Option Nat} : e.Attends e k := of_hires (.refl e)

/-- A change of nothing of this. -/
theorem of_eq {k : Option Nat} (hn : e'.nextStrand = e.nextStrand) (ht : e'.tasks = e.tasks)
    (hg : e'.gathers = e.gathers) (hs : e'.scheduler = e.scheduler) : e.Attends e' k := by
  refine of_minds hn.ge (fun h => ?_) ⟨[], hg.trans (List.append_nil _).symm, fun _ hx => (nomatch hx)⟩
    (fun _ g m _ => ⟨?_, ?_, ?_⟩) (fun _ id => ?_) (fun h => ?_)
  · rw [ht, hn]
    exact h
  · rw [outcomeOf, outcomeOf, task?, task?, ht]
  · rw [owes, owes, task?, task?, ht]
  · rw [tells, tells, hs]
  · rw [hs]
  · rw [hs]
    exact h

theorem trans {k : Option Nat} (h : e.Attends e' k) (h' : e'.Attends e'' k) : e.Attends e'' k := by
  obtain ⟨xs, hxs, hx⟩ := h.gathers
  obtain ⟨ys, hys, hy⟩ := h'.gathers
  have hlen : e.gathers.length ≤ e'.gathers.length := by simp [hxs]
  have hlen' : e'.gathers.length ≤ e''.gathers.length := by simp [hys]
  have hleft : ∀ {g}, g < e.gathers.length ∨ e''.gathers.length ≤ g →
      g < e.gathers.length ∨ e'.gathers.length ≤ g := fun hg => hg.imp_right hlen'.trans
  have hright : ∀ {g}, g < e.gathers.length ∨ e''.gathers.length ≤ g →
      g < e'.gathers.length ∨ e''.gathers.length ≤ g := fun hg => hg.imp_left fun hlt => hlt.trans_le hlen
  refine ⟨h.nextStrand.trans h'.nextStrand, fun ht => h'.tasks (h.tasks ht), ⟨xs ++ ys, ?_, fun x hmem => ?_⟩,
    fun hs g m hg hk => (h.minds hs g m (hleft hg) hk).trans (h'.minds (h.sound hs) g m (hright hg) hk),
    fun hs g m hg => (h'.total (h.sound hs) g m (hright hg)).trans (h.total hs g m (hleft hg)),
    fun hs id => (h.resumes hs id).trans (h'.resumes (h.sound hs) id), fun hs => h'.sound (h.sound hs)⟩
  · rw [hys, hxs, List.append_assoc]
  · rcases List.mem_append.mp hmem with hmem | hmem
    · exact ⟨(hx x hmem).1, (hx x hmem).2.trans_le hlen'⟩
    · exact ⟨hlen.trans (hy x hmem).1, (hy x hmem).2⟩

/-- A gather stays what it is. -/
theorem gather? {k : Option Nat} (h : e.Attends e' k) {g : Nat} {x : Gather} (hx : e.gather? g = some x) :
    e'.gather? g = some x := by
  obtain ⟨news, heq, -⟩ := h.gathers
  rw [Engine.gather?, heq, List.find?_append]
  rw [Engine.gather?] at hx
  rw [hx]
  rfl

end Attends

/-! ## Callbacks -/

/-- A change of tasks that leaves their ids. -/
theorem task?_map (e : Engine) {f : Task → Task} (hf : ∀ w, (f w).id = w.id) (m : Nat) :
    ({ e with tasks := e.tasks.map f } : Engine).task? m = (e.task? m).map f := by
  simp only [task?, List.find?_map]
  congr 2
  funext w
  simp [hf]

theorem id_of_task? {e : Engine} {m : Nat} {w : Task} (h : e.task? m = some w) : w.id = m := by
  simpa using List.find?_some h

theorem tells_soon (e : Engine) (j : Job) (g m : Nat) :
    (e.soon j).tells g m = e.tells g m + if j = .gather g m then 1 else 0 :=
  Loop.pending_soon _ _ _

/-- A callback of a task is added. Nothing changes for other callbacks. -/
theorem onDone_minds (e : Engine) (k : Nat) (c : Callback) {g m : Nat} (hc : c ≠ .gather g ∨ k ≠ m) :
    e.Minds (e.onDone k c) g m := by
  unfold onDone
  split
  · exact .refl e
  · next w hw =>
    split
    · refine ⟨rfl, rfl, ?_⟩
      rw [tells_soon, if_neg, Nat.add_zero]
      intro hj
      cases c with
      | gather x =>
        obtain ⟨rfl, rfl⟩ := Job.gather.inj hj
        exact hc.elim (fun h => h rfl) fun h => h rfl
      | discard | strand => cases hj
    · have htask := task?_map e (f := fun t => if t.id == k then { t with callbacks := t.callbacks ++ [c] } else t)
        (fun w => by split <;> rfl) m
      refine ⟨?_, ?_, rfl⟩
      · rw [outcomeOf, outcomeOf, htask]
        cases e.task? m with
        | none => rfl
        | some x =>
          show Task.outcome (if _ then _ else _) = x.outcome
          split <;> rfl
      · rw [owes, owes, htask]
        cases hm : e.task? m with
        | none => rfl
        | some x =>
          show List.count _ (Task.callbacks (if _ then _ else _)) = x.callbacks.count _
          split
          · next hk =>
            have hxk : x.id = k := by simpa using hk
            have hne : c ≠ .gather g := hc.resolve_right fun hkm => hkm (hxk.symm.trans (id_of_task? hm))
            rw [List.count_append, List.count_singleton, if_neg (by simpa using hne), Nat.add_zero]
          · rfl

/-! ## Calls -/

/-- A change in which tasks may have other callbacks or be done, and jobs are added. -/
structure Calls (e e' : Engine) : Prop where
  nextStrand : e'.nextStrand = e.nextStrand
  strands : e'.strands = e.strands
  tasks : e'.tasks.map Task.id = e.tasks.map Task.id
  gathers : e'.gathers = e.gathers
  scheduler : e.scheduler.Heeds e'.scheduler

namespace Calls

theorem refl (e : Engine) : e.Calls e := ⟨rfl, rfl, rfl, rfl, .refl _⟩

theorem trans (h : e.Calls e') (h' : e'.Calls e'') : e.Calls e'' :=
  ⟨h'.nextStrand.trans h.nextStrand, h'.strands.trans h.strands, h'.tasks.trans h.tasks,
    h'.gathers.trans h.gathers, h.scheduler.trans h'.scheduler⟩

theorem foldl {γ : Type} {f : Engine → γ → Engine} (hf : ∀ (e : Engine) (a : γ), e.Calls (f e a)) (l : List γ)
    (e : Engine) : e.Calls (l.foldl f e) := by
  induction l generalizing e with
  | nil => exact .refl e
  | cons a rest ih => exact (hf e a).trans (ih (f e a))

theorem soon (e : Engine) (j : Job) : e.Calls (e.soon j) := ⟨rfl, rfl, rfl, rfl, .soon _ j⟩

theorem mapTasks (e : Engine) {f : Task → Task} (hf : ∀ w, (f w).id = w.id) :
    e.Calls { e with tasks := e.tasks.map f } := by
  refine ⟨rfl, rfl, ?_, rfl, .refl _⟩
  simp [Function.comp_def, hf]

theorem onDone (e : Engine) (k : Nat) (c : Callback) : e.Calls (e.onDone k c) := by
  unfold Engine.onDone
  split
  · exact .refl e
  · split
    · exact .soon e _
    · exact .mapTasks e fun w => by split <;> rfl

theorem completeTask (e : Engine) (k : Nat) (outcome : Except Raised Response) :
    e.Calls (e.completeTask k outcome) := by
  unfold Engine.completeTask
  split
  · exact .refl e
  · exact (mapTasks e fun w => by split <;> rfl).trans (.foldl (fun e c => .soon e _) _ _)

/-- What such a change keeps of the tasks. -/
theorem attends (h : e.Calls e') {k : Option Nat} (hm : ∀ g m, some m ≠ k → e.Minds e' g m)
    (ht : ∀ g m, e'.owes g m + e'.tells g m = e.owes g m + e.tells g m) : e.Attends e' k := by
  refine ⟨h.nextStrand.ge, fun hold w hw => ?_, ⟨[], h.gathers.trans (List.append_nil _).symm,
    fun _ hx => (nomatch hx)⟩, fun _ g m _ => hm g m, fun _ g m _ => ht g m,
    fun hs _ => h.scheduler.waits hs _ rfl, h.scheduler.sound⟩
  have hid : w.id ∈ e.tasks.map Task.id := h.tasks ▸ List.mem_map_of_mem hw
  obtain ⟨v, hv, heq⟩ := List.mem_map.mp hid
  rw [h.nextStrand, ← heq]
  exact hold v hv

end Calls

/-! ## What the operations do -/

theorem tells_foldl_soon (k : Nat) (cs : List Callback) (e : Engine) (g m : Nat) :
    (cs.foldl (fun e c => e.soon (c.job k)) e).tells g m =
      e.tells g m + if m = k then cs.count (.gather g) else 0 := by
  induction cs generalizing e with
  | nil => simp
  | cons c rest ih =>
    rw [List.foldl_cons, ih, tells_soon, List.count_cons]
    cases c with
    | gather x =>
      simp only [Callback.job, Job.gather.injEq, beq_iff_eq, Callback.gather.injEq, eq_comm (a := k)]
      split_ifs <;> simp_all; omega
    | discard => simp [Callback.job]
    | strand => simp [Callback.job]

theorem tasks_foldl_soon (k : Nat) (cs : List Callback) (e : Engine) :
    (cs.foldl (fun e c => e.soon (c.job k)) e).tasks = e.tasks := by
  induction cs generalizing e with
  | nil => rfl
  | cons c rest ih => rw [List.foldl_cons, ih]; rfl

/-- What is known of the tasks when one is done. -/
theorem task?_completeTask (e : Engine) (k : Nat) (outcome : Except Raised Response) (m : Nat) :
    (e.completeTask k outcome).task? m = if m = k then
      (e.task? m).map fun w => { w with outcome := some outcome, callbacks := [] } else e.task? m := by
  unfold completeTask
  split
  · next hnone =>
    split
    · next hm => rw [hm, hnone]; rfl
    · rfl
  · next w hw =>
    have hsame : ∀ {e e' : Engine}, e'.tasks = e.tasks → e'.task? m = e.task? m := by
      intro e e' h
      rw [task?, task?, h]
    rw [hsame (tasks_foldl_soon k _ _), task?_map e (fun w => by split <;> rfl)]
    cases hm : e.task? m with
    | none => simp
    | some x =>
      have hx := id_of_task? hm
      by_cases hmk : m = k
      · simp [hmk ▸ hx, hmk]
      · simp [hx, hmk]

/-- What a gather is told when a task is done. -/
theorem tells_completeTask (e : Engine) (k : Nat) (outcome : Except Raised Response) (g m : Nat) :
    (e.completeTask k outcome).tells g m = e.tells g m + if m = k then e.owes g k else 0 := by
  unfold completeTask
  split
  · next hnone => simp [owes, hnone]
  · next w hw =>
    rw [tells_foldl_soon, owes, hw]
    rfl

theorem owes_completeTask (e : Engine) (k : Nat) (outcome : Except Raised Response) (g m : Nat) :
    (e.completeTask k outcome).owes g m = if m = k then 0 else e.owes g m := by
  rw [owes, task?_completeTask]
  split
  · cases e.task? m <;> rfl
  · rfl

theorem outcomeOf_completeTask (e : Engine) (k : Nat) (outcome : Except Raised Response) (m : Nat) :
    (e.completeTask k outcome).outcomeOf m =
      if m = k then (e.task? m).map fun _ => outcome else e.outcomeOf m := by
  rw [outcomeOf, task?_completeTask]
  split
  · cases e.task? m <;> rfl
  · rfl

theorem completeTask_attends (e : Engine) (k : Nat) (outcome : Except Raised Response) :
    e.Attends (e.completeTask k outcome) (some k) := by
  refine (Calls.completeTask e k outcome).attends (fun g m hm => ?_) fun g m => ?_
  · have hne : m ≠ k := fun h => hm (congrArg some h)
    refine ⟨?_, ?_, ?_⟩
    · rw [outcomeOf_completeTask, if_neg hne]
    · rw [owes_completeTask, if_neg hne]
    · rw [tells_completeTask, if_neg hne, Nat.add_zero]
  · rw [owes_completeTask, tells_completeTask]
    split
    · next h => rw [h]; omega
    · rw [Nat.add_zero]

theorem onDone_attends (e : Engine) (k strand : Nat) {l : Option Nat} :
    e.Attends (e.onDone k (.strand strand)) l := by
  have hm : ∀ g m, e.Minds (e.onDone k (.strand strand)) g m := fun g m => onDone_minds e k _ (.inl nofun)
  refine (Calls.onDone e k _).attends (fun g m _ => hm g m) fun g m => ?_
  rw [(hm g m).owes, (hm g m).tells]

theorem gather_calls (e : Engine) (members : List Nat) (strand : Nat) :
    ({ e with gathers := e.gathers ++ [{ id := e.gathers.length, members := members, strand := strand }] } :
      Engine).Calls (e.gather members strand).2 :=
  .foldl (fun e _ => .onDone e _ _) _ _

theorem gathers_gather (e : Engine) (members : List Nat) (strand : Nat) : (e.gather members strand).2.gathers =
    e.gathers ++ [{ id := e.gathers.length, members := members, strand := strand }] :=
  (gather_calls e members strand).gathers

theorem foldl_onDone_minds {g g' m : Nat} (ms : List Nat) (e : Engine) (h : g ≠ g' ∨ m ∉ ms) :
    e.Minds (ms.foldl (fun e t => e.onDone t (.gather g')) e) g m := by
  induction ms generalizing e with
  | nil => exact .refl e
  | cons a rest ih =>
    refine (onDone_minds e a _ ?_).trans (ih _ (h.imp_right fun h hin => h (List.mem_cons_of_mem _ hin)))
    exact h.imp (fun h heq => h (Callback.gather.inj heq).symm) fun h heq => h (heq ▸ List.mem_cons_self)

theorem minds_addGather (e : Engine) (x : Gather) (g m : Nat) :
    e.Minds { e with gathers := e.gathers ++ [x] } g m :=
  ⟨rfl, rfl, rfl⟩

/-- A new gather takes nothing from the others. -/
theorem gather_minds (e : Engine) (members : List Nat) (strand : Nat) {g m : Nat}
    (h : g ≠ e.gathers.length ∨ m ∉ members) : e.Minds (e.gather members strand).2 g m :=
  (minds_addGather e _ g m).trans (foldl_onDone_minds members _ h)

theorem Calls.isSome_task? (h : e.Calls e') (m : Nat) : (e'.task? m).isSome = (e.task? m).isSome := by
  have hsome : ∀ e : Engine, (e.task? m).isSome = (e.tasks.map Task.id).any fun id => id == m := by
    intro e
    simp [task?, List.isSome_find?, List.any_map, Function.comp_def]
  rw [hsome, hsome, h.tasks]

/-- A task that is not done gets a callback for a gather. -/
theorem onDone_self (e : Engine) {g m : Nat} (hsome : (e.task? m).isSome = true) (hout : e.outcomeOf m = none) :
    (e.onDone m (.gather g)).outcomeOf m = none ∧ (e.onDone m (.gather g)).owes g m = e.owes g m + 1 ∧
      (e.onDone m (.gather g)).tells g m = e.tells g m := by
  obtain ⟨w, hw⟩ := Option.isSome_iff_exists.mp hsome
  have hnone : w.outcome = none := by simpa [outcomeOf, hw] using hout
  have htask := task?_map e (f := fun t => if t.id == m then { t with callbacks := t.callbacks ++ [.gather g] } else t)
    (fun w => by split <;> rfl) m
  rw [hw, Option.map_some, id_of_task? hw] at htask
  have heq : e.onDone m (.gather g) = { e with tasks := e.tasks.map fun t =>
      if t.id == m then { t with callbacks := t.callbacks ++ [.gather g] } else t } := by
    simp [onDone, hw, hnone]
  rw [heq]
  refine ⟨?_, ?_, rfl⟩
  · rw [outcomeOf, htask]
    simpa using hnone
  · rw [owes, owes, htask, hw]
    simp

/-- Each task of a new gather that is not done has yet to tell it. -/
theorem gather_self (e : Engine) {members : List Nat} (hnodup : members.Nodup) (strand : Nat) {m : Nat}
    (hm : m ∈ members) (hsome : (e.task? m).isSome = true) (hout : e.outcomeOf m = none) :
    (e.gather members strand).2.outcomeOf m = none ∧
      (e.gather members strand).2.owes e.gathers.length m = e.owes e.gathers.length m + 1 ∧
      (e.gather members strand).2.tells e.gathers.length m = e.tells e.gathers.length m := by
  obtain ⟨before, after, rfl⟩ := List.append_of_mem hm
  obtain ⟨-, hafter, hdisjoint⟩ := List.nodup_append.mp hnodup
  have hbefore : m ∉ before := fun hin => hdisjoint m hin m List.mem_cons_self rfl
  let e₀ : Engine := { e with gathers :=
    e.gathers ++ [{ id := e.gathers.length, members := before ++ m :: after, strand := strand }] }
  let e₁ : Engine := before.foldl (fun e' t => e'.onDone t (.gather e.gathers.length)) e₀
  have h₀ : e.Minds e₁ e.gathers.length m :=
    (minds_addGather e _ _ m).trans (foldl_onDone_minds before e₀ (.inr hbefore))
  have hc : e₀.Calls e₁ := .foldl (fun e _ => .onDone e _ _) _ _
  obtain ⟨houtcome, howes, htells⟩ := onDone_self e₁ (g := e.gathers.length)
    ((hc.isSome_task? m).trans hsome) (h₀.outcome.trans hout)
  have h₂ : (e₁.onDone m (.gather e.gathers.length)).Minds (after.foldl
      (fun e' t => e'.onDone t (.gather e.gathers.length)) (e₁.onDone m (.gather e.gathers.length)))
      e.gathers.length m := foldl_onDone_minds after _ (.inr (List.nodup_cons.mp hafter).1)
  have heq : (e.gather (before ++ m :: after) strand).2 =
      after.foldl (fun e' t => e'.onDone t (.gather e.gathers.length)) (e₁.onDone m (.gather e.gathers.length)) := by
    simp only [gather, List.foldl_append, List.foldl_cons, e₁, e₀]
  rw [heq]
  exact ⟨h₂.outcome.trans houtcome, h₂.owes.trans (howes.trans (congrArg Nat.succ h₀.owes)),
    h₂.tells.trans (htells.trans h₀.tells)⟩

theorem gather_attends (e : Engine) (members : List Nat) (strand : Nat) {k : Option Nat} :
    e.Attends (e.gather members strand).2 k := by
  have hc := gather_calls e members strand
  have hlen : (e.gather members strand).2.gathers.length = e.gathers.length + 1 := by
    simp [gathers_gather]
  refine .of_minds (e := e) hc.nextStrand.ge (fun hold w hw => ?_) ⟨_, gathers_gather e members strand, fun x hx => ?_⟩
    (fun _ g m hg => gather_minds e members strand (.inl ?_)) (fun hs _ => hc.scheduler.waits hs _ rfl)
    hc.scheduler.sound
  · have hid : w.id ∈ e.tasks.map Task.id := hc.tasks ▸ List.mem_map_of_mem hw
    obtain ⟨v, hv, heq⟩ := List.mem_map.mp hid
    rw [hc.nextStrand, ← heq]
    exact hold v hv
  · rw [List.mem_singleton.mp hx, hlen]
    exact ⟨le_rfl, Nat.lt_succ_self _⟩
  · rw [hlen] at hg
    omega

/-! ## Turns -/

theorem park_attends (e : Engine) (s : Strand) (p : Parked) {k : Option Nat} : e.Attends (e.park s p) k :=
  .of_eq rfl rfl rfl rfl

end Engine

/-- The task that a frame is the end of. -/
def Frame.task? : Frame → Option Nat
  | .task k => some k
  | _ => none

namespace Engine.Passes

variable {e : Engine} {id : Nat} {top : Option Frame} {base : List Frame} {faulty : Bool} {t : Engine.Turn}

/-- The task that a turn comes back to may be done by it. -/
theorem attends (h : e.Passes id top base faulty t) : e.Attends t.engine (top.bind Frame.task?) := by
  cases h with
  | goes h => exact .of_hires h
  | parks h => exact (Attends.of_hires h).trans (park_attends _ _ _)
  | gathers members h => exact ((Attends.of_hires h).trans (gather_attends _ members id)).trans (park_attends _ _ _)
  | awaits task => exact (onDone_attends e task id).trans (park_attends _ _ _)
  | asks htop h => exact .of_hires h
  | completes htop outcome =>
    rw [htop]
    exact completeTask_attends e _ outcome
  | ends htop h => exact .of_hires h

/-- No turn takes away what somebody waits for. -/
theorem heeds (h : e.Passes id top base faulty t) : e.scheduler.Heeds t.engine.scheduler := by
  cases h with
  | goes h => exact h.scheduler.toHeeds
  | parks h => exact h.scheduler.toHeeds
  | @gathers e' s' members h => exact h.scheduler.toHeeds.trans (gather_calls e' members id).scheduler
  | awaits task => exact (Calls.onDone e task _).scheduler
  | asks htop h => exact h.scheduler.toHeeds
  | completes htop outcome => exact (Calls.completeTask e _ outcome).scheduler
  | ends htop h => exact h.scheduler.toHeeds

/-- The strands after a turn: that which had it, unless it is over, new ones, and those that wait as they did. -/
theorem population (h : e.Passes id top base faulty t) :
    ∃ (own : Option (Strand × Parked)) (news : List (Strand × Parked)),
      t.population = own.toList ++ (news ++ e.strands) ∧ (news.map fun x => x.1.id).Nodup ∧
      (∀ x ∈ news, Newcomer x ∧ e.nextStrand ≤ x.1.id ∧ x.1.id < t.engine.nextStrand) ∧
      (∀ x, own = some x → Heir id base faulty x ∨
        top = some .session ∧ x.1.id = id ∧ x.1.frames = [.session] ∧ ∃ r, x.2 = .turn (.call (.request r))) ∧
      (own = none → (∃ f, top = some f ∧ f.Outer) ∨ top = none ∧ base = []) := by
  cases h with
  | goes h hx =>
    obtain ⟨news, hs, hnodup, hnews, -⟩ := h.strands
    refine ⟨some _, news, ?_, hnodup, hnews, fun x heq => .inl (Option.some.inj heq ▸ hx), by simp⟩
    simp [Engine.Turn.population, Engine.go, hs]
  | parks h hx =>
    obtain ⟨news, hs, hnodup, hnews, -⟩ := h.strands
    refine ⟨some _, news, ?_, hnodup, hnews, fun x heq => .inl (Option.some.inj heq ▸ hx), by simp⟩
    simp [Engine.Turn.population, Engine.park, hs]
  | @gathers e' s' members h hx =>
    obtain ⟨news, hs, hnodup, hnews, -⟩ := h.strands
    have hc := gather_calls e' members id
    refine ⟨some _, news, ?_, hnodup, fun x hmem => ?_, fun x heq => .inl (Option.some.inj heq ▸ hx), by simp⟩
    · simp [Engine.Turn.population, Engine.park, hc.strands, hs]
    · rw [show (Engine.park _ _ _).nextStrand = e'.nextStrand from hc.nextStrand]
      exact hnews x hmem
  | awaits task hx =>
    refine ⟨some _, [], ?_, List.nodup_nil, by simp,
      fun x heq => .inl (Option.some.inj heq ▸ hx), by simp⟩
    simp [Engine.Turn.population, Engine.park, (Calls.onDone e task _).strands]
  | @asks e' s' r htop h hid hs =>
    obtain ⟨news, hstr, hnodup, hnews, -⟩ := h.strands
    refine ⟨some (s', .turn (.call (.request r))), news, ?_, hnodup, hnews, fun x heq => .inr ?_, by simp⟩
    · simp [Engine.Turn.population, Engine.go, hstr]
    · rw [← Option.some.inj heq]
      exact ⟨htop, hid, hs, _, rfl⟩
  | completes htop outcome =>
    refine ⟨none, [], ?_, List.nodup_nil, by simp, by simp,
      fun _ => .inl ⟨_, htop, trivial⟩⟩
    simp [Engine.Turn.population, (Calls.completeTask e _ outcome).strands]
  | ends htop h =>
    obtain ⟨news, hs, hnodup, hnews, -⟩ := h.strands
    exact ⟨none, news, by simp [Engine.Turn.population, hs], hnodup, hnews, by simp,
      fun _ => htop.imp_left fun htop => ⟨.session, htop, trivial⟩⟩

/-- Strands that are new, and that which had the turn when it waits, will be taken up. -/
theorem rouses (h : e.Passes id top base faulty t) (hs : e.scheduler.Sound) {x : Strand × Parked}
    (hx : x ∈ t.engine.strands) : x ∈ e.strands ∨ t.engine.scheduler.Rouses x := by
  have hnews : ∀ e' : Engine, e.Hires e' → x ∈ e'.strands → x ∈ e.strands ∨ e'.scheduler.Rouses x := by
    intro e' h hx
    obtain ⟨news, hstrands, -, -, hrouses⟩ := h.strands
    rw [hstrands] at hx
    exact (List.mem_append.mp hx).symm.imp_right (hrouses hs x)
  cases h with
  | goes h => exact hnews _ h hx
  | @parks e' s' q h _ hw =>
    rcases List.mem_cons.mp hx with rfl | hx
    · exact .inr (hw hs)
    · exact hnews e' h hx
  | @gathers e' s' members h =>
    have hc := gather_calls e' members id
    rcases List.mem_cons.mp hx with rfl | hx
    · exact .inr trivial
    · exact (hnews _ h (hc.strands ▸ hx)).imp_right (hc.scheduler.rouses (h.scheduler.sound hs))
  | awaits task =>
    rcases List.mem_cons.mp hx with rfl | hx
    · exact .inr trivial
    · exact .inl ((Calls.onDone e task _).strands ▸ hx)
  | asks htop h => exact hnews _ h hx
  | completes htop outcome => exact .inl ((Calls.completeTask e _ outcome).strands ▸ hx)
  | ends htop h => exact hnews _ h hx

end Engine.Passes

/-! ## Jobs -/

/-- Jobs that take up a strand, jobs that tell a gather, and others. -/
theorem Job.sorts (j : Job) : (∃ id, j = .resume id) ∨ (∃ g m, j = .gather g m) ∨
    (∀ id, j ≠ .resume id) ∧ ∀ g m, j ≠ .gather g m := by
  cases j with
  | resume id => exact .inl ⟨id, rfl⟩
  | gather g m => exact .inr (.inl ⟨g, m, rfl⟩)
  | _ => exact .inr (.inr ⟨fun _ => nofun, fun _ _ => nofun⟩)

namespace Engine

/-- A job that neither takes up a strand nor tells a gather at most starts tasks. -/
theorem handle_hires (e : Engine) {j : Job} (hresume : ∀ id, j ≠ .resume id) (hgather : ∀ g m, j ≠ .gather g m) :
    e.Hires (e.handle j).engine ∧ (e.handle j).next = none := by
  cases j with
  | resume id => exact absurd rfl (hresume id)
  | gather g m => exact absurd rfl (hgather g m)
  | timeout id => exact ⟨.soon e fun _ _ => nofun, rfl⟩
  | fire id => exact ⟨.expire id e, rfl⟩
  | elapse id => exact ⟨.schedule e (.settle _ _ _), rfl⟩
  | discard id => exact ⟨.of_eq rfl, rfl⟩

theorem unpark_attends (e : Engine) (p : Parked) : e.Attends (e.unpark p).2 none := by
  cases p with
  | turn sig => exact .refl e
  | sleep id =>
    have hends := e.scheduler.ends_endSleep id
    exact .of_minds le_rfl (fun h => h) ⟨[], (List.append_nil _).symm, fun _ hx => (nomatch hx)⟩
      (fun hs g m _ => ⟨rfl, rfl, hends.plain hs _ rfl⟩) (fun hs _ => (hends.plain hs _ rfl).ge) hends.sound
  | task id =>
    simp only [unpark]
    split <;> exact .refl e
  | gather id =>
    simp only [unpark]
    split <;> exact .refl e

/-- Every job but those that tell a gather. -/
theorem handle_attends (e : Engine) {j : Job} (hgather : ∀ g m, j ≠ .gather g m) :
    e.Attends (e.handle j).engine none := by
  rcases j.sorts with ⟨id, rfl⟩ | ⟨g, m, rfl⟩ | ⟨hresume, -⟩
  · simp only [handle]
    split
    · exact .refl e
    · split
      · have hfilter : e.Attends { e with strands := e.strands.filter fun x => x.1.id != id } none :=
          .of_eq rfl rfl rfl rfl
        exact hfilter.trans (unpark_attends _ _)
      · exact .refl e
  · exact absurd rfl (hgather g m)
  · exact .of_hires (handle_hires e hresume hgather).1

/-! ### What a gather hears -/

/-- What a gather has come to when it hears of a task. -/
def verdict (e : Engine) (x : Gather) (m : Nat) : Option (Except Raised (List TriggerResult)) :=
  match x.outcome, e.outcomeOf m with
  | some o, _ => some o
  | none, some (.error err) => some (.error err)
  | none, _ => if x.done + 1 == x.members.length then some (.ok (e.resultsOf x.members)) else none

/-- A gather notes that it has heard of a task. -/
def note (e : Engine) (x : Gather) (m : Nat) : Engine :=
  { e with gathers := e.gathers.map fun y =>
      if y.id == x.id then { y with done := x.done + 1, outcome := e.verdict x m } else y }

theorem id_of_gather? {e : Engine} {g : Nat} {x : Gather} (h : e.gather? g = some x) : x.id = g := by
  simpa using List.find?_some h

theorem gatherDone_of_some {e : Engine} {g : Nat} {x : Gather} (h : e.gather? g = some x) (m : Nat) :
    e.gatherDone g m = if x.outcome.isNone && (e.verdict x m).isSome then (e.note x m).soon (.resume x.strand)
      else e.note x m := by
  obtain rfl := id_of_gather? h
  rw [gather?] at h
  simp only [gatherDone, h]
  rfl

/-- A gather that hears of a task changes nothing else. -/
structure Hears (e e' : Engine) : Prop where
  nextStrand : e'.nextStrand = e.nextStrand
  strands : e'.strands = e.strands
  tasks : e'.tasks = e.tasks
  gathers : e'.gathers.map Gather.id = e.gathers.map Gather.id
  tells : ∀ g m, e'.tells g m = e.tells g m
  scheduler : e.scheduler.Heeds e'.scheduler

theorem gatherDone_hears (e : Engine) (g m : Nat) : e.Hears (e.gatherDone g m) := by
  cases hx : e.gather? g with
  | none =>
    rw [gather?] at hx
    have heq : e.gatherDone g m = e := by simp only [gatherDone, hx]
    rw [heq]
    exact ⟨rfl, rfl, rfl, rfl, fun _ _ => rfl, .refl _⟩
  | some x =>
    rw [gatherDone_of_some hx]
    have hids : (e.note x m).gathers.map Gather.id = e.gathers.map Gather.id := by
      rw [note, List.map_map]
      refine List.map_congr_left fun y _ => ?_
      simp only [Function.comp]
      split <;> rfl
    split
    · refine ⟨rfl, rfl, rfl, hids, fun g m' => ?_, .soon _ _⟩
      rw [tells_soon, if_neg nofun]
      rfl
    · exact ⟨rfl, rfl, rfl, hids, fun _ _ => rfl, .refl _⟩

theorem Hears.minds {e e' : Engine} (h : e.Hears e') (g m : Nat) : e.Minds e' g m :=
  ⟨by rw [outcomeOf, outcomeOf, task?, task?, h.tasks], by rw [owes, owes, task?, task?, h.tasks], h.tells g m⟩

/-- What becomes of the gathers when one of them hears of a task. -/
theorem gather?_gatherDone (e : Engine) (g m g' : Nat) : (e.gatherDone g m).gather? g' =
    (e.gather? g').map fun x => if g' = g then { x with done := x.done + 1, outcome := e.verdict x m } else x := by
  cases hx : e.gather? g with
  | none =>
    have heq : e.gatherDone g m = e := by
      rw [gather?] at hx
      simp only [gatherDone, hx]
    rw [heq]
    cases hy : e.gather? g' with
    | none => rfl
    | some y =>
      have hne : g' ≠ g := by
        rintro rfl
        rw [hx] at hy
        cases hy
      simp [hne]
  | some x =>
    have hnote : (e.gatherDone g m).gather? g' = (e.note x m).gather? g' := by
      rw [gatherDone_of_some hx]
      split <;> rfl
    obtain rfl := id_of_gather? hx
    have hfind : (e.note x m).gather? g' = (e.gather? g').map fun y =>
        if y.id == x.id then { y with done := x.done + 1, outcome := e.verdict x m } else y := by
      simp only [gather?, note, List.find?_map]
      congr 2
      funext y
      simp only [Function.comp]
      split <;> rfl
    rw [hnote, hfind]
    cases hy : e.gather? g' with
    | none => rfl
    | some y =>
      obtain rfl := id_of_gather? hy
      by_cases heq : y.id = x.id
      · rw [heq, hx] at hy
        obtain rfl := Option.some.inj hy
        simp
      · simp [heq]

end Engine

end Patchbay
