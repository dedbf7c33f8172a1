import Mathlib.Data.List.Find
import Patchbay.Proofs.InStep
import Patchbay.Proofs.Scheduling

/-!
# Who listens

Whatever engines do, registrations stay what they are: they are cancelled and called, and new ones come after them.
The listeners for an event that is named by a text are found in the order in which they were registered, even when
behaviours have registered listeners for events that are named by other values. And nobody counts the firings of an
interval but the loop, when its timer is due.

Contents:
* `Registration.Stays`, `Scheduler.Grows`: what does not change of registrations.
* `Scheduler.hearing`: the listeners for an event that is named by a text.
* `Scheduler.Attuned`: the invariant; `Scheduler.Counts`: how often an interval has fired.

Results:
* `Attuned.act`, `Attuned.fires`: operations and firings keep it.
* `Attuned.listenersFor`: the listeners that an event is delivered to.
* `Counts.act`, `Counts.fires`: operations do not count as firings, firings do.
-/

namespace Patchbay

/-! ## Registrations -/

/-- What the trigger that a registration starts is given. -/
def RegistrationKind.carried : RegistrationKind → Carried
  | .timer => .nothing
  | .interval => .tick
  | .listener => .payload

/-- Whether a registration is as engines make them: it starts triggers of its owner, and waits for no event unless it
is a listener. -/
structure Registration.Regular (r : Registration Firing) : Prop where
  node : r.callback.node = r.owner
  carried : r.callback.carried = r.kind.carried
  event : r.kind ≠ .listener → r.event = .null

/-- Whether a registration is what became of another one. An interval has not fired meanwhile. -/
structure Registration.Stays (r r' : Registration Firing) : Prop where
  id : r'.id = r.id
  owner : r'.owner = r.owner
  kind : r'.kind = r.kind
  callback : r'.callback = r.callback
  event : r'.event = r.event
  fired : r.kind = .interval → r'.fired = r.fired

namespace Registration

variable {r r' r'' : Registration Firing}

theorem Stays.refl (r : Registration Firing) : r.Stays r := ⟨rfl, rfl, rfl, rfl, rfl, fun _ => rfl⟩

theorem Stays.trans (h : r.Stays r') (h' : r'.Stays r'') : r.Stays r'' :=
  ⟨h'.id.trans h.id, h'.owner.trans h.owner, h'.kind.trans h.kind, h'.callback.trans h.callback,
    h'.event.trans h.event, fun hk => (h'.fired (h.kind.trans hk)).trans (h.fired hk)⟩

theorem Regular.stays (h : r.Regular) (hs : r.Stays r') : r'.Regular := by
  refine ⟨?_, ?_, fun hk => ?_⟩
  · rw [hs.callback, hs.owner]
    exact h.node
  · rw [hs.callback, hs.kind]
    exact h.carried
  · rw [hs.event]
    exact h.event (hs.kind ▸ hk)

end Registration

namespace Scheduler

variable {s s' s'' : Scheduler Firing Job}

/-- A change in which registrations stay, beside new ones that have not fired. -/
def Grows (s s' : Scheduler Firing Job) : Prop :=
  ∃ (f : Registration Firing → Registration Firing) (news : List (Registration Firing)),
    s'.registrations = s.registrations.map f ++ news ∧ (∀ r ∈ s.registrations, r.Stays (f r)) ∧
      ∀ r ∈ news, r.Regular ∧ (r.kind = .interval → r.fired = 0)

namespace Grows

theorem of_eq (h : s'.registrations = s.registrations) : s.Grows s' :=
  ⟨fun r => r, [], by simp [h], fun r _ => .refl r, fun _ hr => (nomatch hr)⟩

theorem refl (s : Scheduler Firing Job) : s.Grows s := of_eq rfl

theorem trans (h : s.Grows s') (h' : s'.Grows s'') : s.Grows s'' := by
  obtain ⟨f, news, heq, hstays, hnews⟩ := h
  obtain ⟨g, more, heq', hstays', hmore⟩ := h'
  rw [heq] at hstays'
  refine ⟨g ∘ f, news.map g ++ more, ?_, fun r hr => ?_, fun r hr => ?_⟩
  · rw [heq', heq, List.map_append, List.map_map, List.append_assoc]
  · exact (hstays r hr).trans (hstays' _ (List.mem_append_left _ (List.mem_map_of_mem hr)))
  · rcases List.mem_append.mp hr with hr | hr
    · obtain ⟨x, hx, rfl⟩ := List.mem_map.mp hr
      have hx' := hstays' x (List.mem_append_right _ hx)
      obtain ⟨hregular, hfired⟩ := hnews x hx
      refine ⟨hregular.stays hx', fun hk => ?_⟩
      have hkind : x.kind = .interval := hx'.kind ▸ hk
      exact (hx'.fired hkind).trans (hfired hkind)
    · exact hmore r hr

theorem modify (s : Scheduler Firing Job) (id : Nat) {f : Registration Firing → Registration Firing}
    (hf : ∀ r ∈ s.registrations, r.id = id → r.Stays (f r)) : s.Grows (s.modify id f) := by
  refine ⟨fun r => if r.id == id then f r else r, [], (List.append_nil _).symm, fun r hr => ?_, fun _ hr => (nomatch hr)⟩
  dsimp only
  split
  · next heq => exact hf r hr (beq_iff_eq.mp heq)
  · exact .refl r

theorem track (s : Scheduler Firing Job) {r : Registration Firing} (hr : r.Regular) (hfired : r.fired = 0) :
    s.Grows (s.track r).2 := by
  refine ⟨fun r => r, [{ r with id := s.registrations.length }], by simp [Scheduler.track], fun r _ => .refl r,
    fun x hx => ?_⟩
  rw [List.mem_singleton.mp hx]
  exact ⟨⟨hr.node, hr.carried, hr.event⟩, fun _ => hfired⟩

theorem arm {id : Nat} {time : Float} {job : Job} (h : s.arm id time job = .ok s') : s.Grows s' := by
  obtain ⟨due, rfl⟩ := Scheduler.arm_eq_ok h
  have hloop : s.Grows { s with loop := (s.loop.addTimer due job).2 } := of_eq rfl
  exact hloop.trans (modify _ id fun _ _ _ => ⟨rfl, rfl, rfl, rfl, rfl, fun _ => rfl⟩)

theorem armAfter {id : Nat} {delay : Except Fault Value} {job : Job} (h : s.armAfter id delay job = .ok s') :
    s.Grows s' := by
  obtain ⟨time, harm⟩ := Scheduler.armAfter_eq_ok h
  exact arm harm

theorem rearm (s : Scheduler Firing Job) (r : Registration Firing) : s.Grows (s.rearm r .fire) := by
  unfold Scheduler.rearm
  split
  · dsimp only
    split
    · next h => exact (arm h).trans (modify _ _ fun _ _ _ => ⟨rfl, rfl, rfl, rfl, rfl, fun _ => rfl⟩)
    · exact refl s
  · exact refl s

theorem callLater (s : Scheduler Firing Job) (owner : String) (delay : Value) (port : String) :
    s.Grows (s.callLater .fire owner delay ⟨owner, port, .nothing⟩).2 := by
  have ht := track s (r := { id := 0, owner := owner, kind := .timer, callback := ⟨owner, port, .nothing⟩ })
    ⟨rfl, rfl, fun _ => rfl⟩ rfl
  unfold Scheduler.callLater
  dsimp only
  split
  · next harm => exact ht.trans (armAfter harm)
  · exact ht

theorem every (s : Scheduler Firing Job) (owner : String) (seconds : Value) (port : String) :
    s.Grows (s.every .fire owner seconds ⟨owner, port, .tick⟩).2 := by
  unfold Scheduler.every
  split
  · exact refl s
  · next period _ =>
    have ht := track s
      (r := { id := 0, owner := owner, kind := .interval, callback := ⟨owner, port, .tick⟩, interval := some period })
      ⟨rfl, rfl, fun _ => rfl⟩ rfl
    dsimp only
    split
    · next harm => exact ht.trans (armAfter harm)
    · exact ht

theorem listen (s : Scheduler Firing Job) (owner : String) (event : Value) (port : String) :
    s.Grows (s.listen owner event ⟨owner, port, .payload⟩).2 := by
  have ht := track s
    (r := { id := 0, owner := owner, kind := .listener, callback := ⟨owner, port, .payload⟩, event := event })
    ⟨rfl, rfl, fun hk => absurd rfl hk⟩ rfl
  unfold Scheduler.listen
  dsimp only
  split
  · exact ht.trans (of_eq rfl)
  · exact ht

theorem cancel (s : Scheduler Firing Job) (id : Nat) : s.Grows (s.cancel id).2 := by
  cases hr : s.find? id with
  | none =>
    refine of_eq ?_
    simp only [Scheduler.cancel, hr]
  | some r =>
    cases hc : r.cancelled with
    | true =>
      refine of_eq ?_
      simp only [Scheduler.cancel, hr, hc, if_true]
    | false =>
      obtain ⟨-, hregs, -⟩ := cancel_of_find? hr hc
      exact (modify s id (f := fun r => { r with cancelled := true })
        fun _ _ _ => ⟨rfl, rfl, rfl, rfl, rfl, fun _ => rfl⟩).trans (of_eq hregs)

theorem firing (s : Scheduler Firing Job) (r : Registration Firing) : s.Grows (s.firing .fire r) := by
  unfold Scheduler.firing
  split
  · exact rearm s r
  · exact of_eq (forget_fields s r).1

theorem regular (h : s.Grows s') (hr : ∀ r ∈ s.registrations, r.Regular) : ∀ r ∈ s'.registrations, r.Regular := by
  obtain ⟨f, news, heq, hstays, hnews⟩ := h
  intro r hmem
  rw [heq] at hmem
  rcases List.mem_append.mp hmem with hmem | hmem
  · obtain ⟨x, hx, rfl⟩ := List.mem_map.mp hmem
    exact (hr x hx).stays (hstays x hx)
  · exact (hnews r hmem).1

/-- What becomes of the registration with an id. -/
theorem find? (h : s.Grows s') (id : Nat) : (∃ r r', s.find? id = some r ∧ s'.find? id = some r' ∧ r.Stays r') ∨
    s.find? id = none ∧ ∀ r', s'.find? id = some r' → r'.kind = .interval → r'.fired = 0 := by
  obtain ⟨f, news, heq, hstays, hnews⟩ := h
  have hold : ((s.registrations.map f).find? fun r => r.id == id) = (s.find? id).map f := by
    rw [List.find?_map, Scheduler.find?]
    congr 1
    refine List.find?_congr fun r hr => ?_
    simp only [Function.comp, (hstays r hr).id]
  have hfind : s'.find? id = ((s.find? id).map f).or (news.find? fun r => r.id == id) := by
    rw [Scheduler.find?, heq, List.find?_append, hold]
  cases hr : s.find? id with
  | some r =>
    rw [hr] at hfind
    exact .inl ⟨r, f r, rfl, hfind, hstays r (mem_of_find? hr)⟩
  | none =>
    rw [hr] at hfind
    refine .inr ⟨rfl, fun r' hr' => ?_⟩
    rw [hfind] at hr'
    exact (hnews r' (List.mem_of_find?_eq_some hr')).2

end Grows

/-! ## Listeners -/

/-- The listeners for an event that is named by a text, in the order in which they were registered. -/
def hearing (s : Scheduler Firing Job) (name : String) : List (Registration Firing) :=
  s.registrations.filter fun r => r.kind == .listener && !r.cancelled && r.event.text? == some name

/-- The part of an index that is about events that are named by texts. -/
def named (l : List (Value × List Nat)) : List (Value × List Nat) := l.filter fun e => e.1.text?.isSome

theorem text?_eq_some {v : Value} {name : String} : v.text? = some name ↔ v = .str name := by
  cases v <;> simp [Value.text?]

theorem named_cons (e : Value × List Nat) (l : List (Value × List Nat)) :
    named (e :: l) = if e.1.text?.isSome then e :: named l else named l := by
  simp only [named, List.filter_cons]

section Named

variable {v : Value} {name : String} {id : Nat}

/-- A value that is no text is none of the names. -/
theorem text?_of_same {v w : Value} (hv : v.text? = none) (h : v.same w = true) : w.text? = none := by
  cases hw : w.text? with
  | none => rfl
  | some name =>
    obtain rfl := text?_eq_some.mp hw
    rw [Value.same_str_iff.mp h] at hv
    cases hv

theorem text?_of_same_eq {v w : Value} (h : v.same w = true) : w.text? = v.text? := by
  cases hv : v.text? with
  | none => exact text?_of_same hv h
  | some name =>
    obtain rfl := text?_eq_some.mp hv
    rw [Value.str_same_iff.mp h]
    rfl

theorem named_indexed_str (name : String) (id : Nat) (l : List (Value × List Nat)) :
    named (indexed Value.same (.str name) id l) = indexed Value.same (.str name) id (named l) := by
  induction l with
  | nil => rfl
  | cons e rest ih =>
    by_cases hsame : Value.same (.str name) e.1 = true
    · have hname : e.1 = .str name := Value.str_same_iff.mp hsame
      have htext : e.1.text?.isSome = true := by rw [hname]; rfl
      rw [indexed, if_pos hsame, named_cons, if_pos htext, named_cons, if_pos htext, indexed, if_pos hsame]
    · rw [indexed, if_neg hsame, named_cons, named_cons, ih]
      split
      · rw [indexed, if_neg hsame]
      · rfl

theorem named_indexed_of_none (hv : v.text? = none) (id : Nat) (l : List (Value × List Nat)) :
    named (indexed Value.same v id l) = named l := by
  induction l with
  | nil => simp [indexed, named, hv]
  | cons e rest ih =>
    rw [indexed]
    split
    · next hsame => simp [named_cons, text?_of_same hv hsame]
    · rw [named_cons, named_cons, ih]

theorem named_withdrawn {l : List (Value × List Nat)} (h : ∀ e ∈ l, id ∈ e.2 → e.1.text?.isSome = true) :
    named (withdrawn id l) = withdrawn id (named l) := by
  induction l with
  | nil => rfl
  | cons e rest ih =>
    obtain ⟨he, hrest⟩ := List.forall_mem_cons.mp h
    by_cases hid : id ∈ e.2
    · rw [withdrawn, if_pos hid, named_cons, if_pos (he hid), withdrawn, if_pos hid]
      dsimp only
      split
      · rfl
      · rw [named_cons, if_pos (he hid)]
    · rw [withdrawn, if_neg hid, named_cons, named_cons, ih hrest]
      split
      · rw [withdrawn, if_neg hid]
      · rfl

theorem named_withdrawn_of_none {l : List (Value × List Nat)} (h : ∀ e ∈ l, id ∈ e.2 → e.1.text? = none) :
    named (withdrawn id l) = named l := by
  induction l with
  | nil => rfl
  | cons e rest ih =>
    obtain ⟨he, hrest⟩ := List.forall_mem_cons.mp h
    rw [withdrawn]
    split
    · next hid =>
      have hnone : e.1.text?.isSome = false := by rw [he hid]; rfl
      dsimp only
      split
      · simp [named_cons, hnone]
      · simp [named_cons, hnone]
    · rw [named_cons, named_cons, ih hrest]

end Named

/-! ## The invariant -/

/-- The invariant: the listeners for events that are named by texts are found in their order, only listeners are found
by events, and no job of the loop makes one fire. -/
structure Attuned (s : Scheduler Firing Job) : Prop where
  numbered : s.standings.map Standing.id = List.range s.registrations.length
  regular : ∀ r ∈ s.registrations, r.Regular
  names : Indexes Value.same IsName (named s.listeners) fun v => listed (Standing.hears v.text?) s.standings
  heard : ∀ e ∈ s.listeners, ∀ id ∈ e.2, ∃ x ∈ s.standings, x.id = id ∧ x.kind = .listener ∧ x.event.text? = e.1.text?
  deaf : ∀ x ∈ s.standings, x.kind = .listener → s.loop.pending (.fire x.id) = 0
  fresh : ∀ id, s.registrations.length ≤ id → s.loop.pending (.fire id) = 0

theorem Attuned.initial (shortest : Float) : Attuned { minInterval := shortest } :=
  ⟨rfl, fun _ hr => (nomatch hr), ⟨List.nodup_nil, fun _ he => (nomatch he), fun _ he => (nomatch he), fun _ _ => rfl⟩,
    fun _ he => (nomatch he), fun _ hx => (nomatch hx), fun _ _ => rfl⟩

namespace Attuned

theorem nodup (h : s.Attuned) : (s.standings.map Standing.id).Nodup := by
  rw [h.numbered]
  exact List.nodup_range

theorem lt_length (h : s.Attuned) {x : Standing} (hx : x ∈ s.standings) : x.id < s.registrations.length := by
  rw [← List.mem_range, ← h.numbered]
  exact List.mem_map_of_mem hx

theorem eq_of_id (h : s.Attuned) {x y : Standing} (hx : x ∈ s.standings) (hy : y ∈ s.standings) (heq : x.id = y.id) :
    x = y := List.inj_on_of_nodup_map h.nodup hx hy heq

theorem find?_of_mem (h : s.Attuned) {r : Registration Firing} (hr : r ∈ s.registrations) : s.find? r.id = some r :=
  find?_of_nodup h.nodup hr

/-- A registration is held under its event, as far as that is a text. -/
theorem text?_of_held (h : s.Attuned) {r : Registration Firing} (hr : r ∈ s.registrations) {e : Value × List Nat}
    (he : e ∈ s.listeners) (hid : r.id ∈ e.2) : e.1.text? = r.event.text? := by
  obtain ⟨x, hx, hxid, -, htext⟩ := h.heard e he r.id hid
  obtain rfl := h.eq_of_id hx (List.mem_map_of_mem hr) hxid
  exact htext.symm

/-- A change of one registration. -/
theorem of_changed (h : s.Attuned) {id : Nat} {g : Standing → Standing}
    (hg : ∀ x, (g x).id = x.id ∧ (g x).kind = x.kind ∧ (g x).event = x.event)
    (hregular : ∀ r ∈ s'.registrations, r.Regular)
    (hs : s'.standings = changed id g s.standings)
    (hnames : Indexes Value.same IsName (named s'.listeners) fun v => listed (Standing.hears v.text?) s'.standings)
    (hl : ∀ e ∈ s'.listeners, ∀ i ∈ e.2, ∃ x ∈ s.listeners, x.1 = e.1 ∧ i ∈ x.2)
    (hp : ∀ i, s'.loop.pending (.fire i) ≤ s.loop.pending (.fire i)) : s'.Attuned := by
  have hid : ∀ x, (g x).id = x.id := fun x => (hg x).1
  have hlen : s'.registrations.length = s.registrations.length := by
    simpa [standings, changed] using congrArg List.length hs
  refine ⟨?_, hregular, hnames, fun e he i hi => ?_, fun x hx hk => ?_, fun i hi => ?_⟩
  · rw [hs, ids_changed hid, hlen]
    exact h.numbered
  · obtain ⟨e', he', hkey, hi'⟩ := hl e he i hi
    obtain ⟨x, hx, hxi, hk, htext⟩ := h.heard e' he' i hi'
    refine ⟨if x.id = id then g x else x, ?_, ?_, ?_, ?_⟩
    · rw [hs]
      exact List.mem_map_of_mem hx
    · split
      · exact (hid x).trans hxi
      · exact hxi
    · split
      · exact (hg x).2.1.trans hk
      · exact hk
    · rw [← hkey, ← htext]
      split
      · rw [(hg x).2.2]
      · rfl
  · rw [hs] at hx
    have hdeaf : s.loop.pending (.fire x.id) = 0 := by
      rcases mem_changed hx with ⟨y, hy, -, rfl⟩ | ⟨hx, -⟩
      · rw [hid]
        exact h.deaf y hy ((hg y).2.1 ▸ hk)
      · exact h.deaf x hx hk
    exact Nat.le_zero.mp (hdeaf ▸ hp x.id)
  · exact Nat.le_zero.mp (h.fresh i (hlen ▸ hi) ▸ hp i)

/-- A change of one registration that hears what it heard. -/
theorem revised (h : s.Attuned) {id : Nat} {g : Standing → Standing}
    (hg : ∀ x, (g x).id = x.id ∧ (g x).kind = x.kind ∧ (g x).event = x.event)
    (hregular : ∀ r ∈ s'.registrations, r.Regular) (hs : s'.standings = changed id g s.standings)
    (hears : ∀ x ∈ s.standings, x.id = id → ∀ name, (g x).hears (some name) = x.hears (some name))
    (hl : named s'.listeners = named s.listeners)
    (hsub : ∀ e ∈ s'.listeners, ∀ i ∈ e.2, ∃ x ∈ s.listeners, x.1 = e.1 ∧ i ∈ x.2)
    (hp : ∀ i, s'.loop.pending (.fire i) ≤ s.loop.pending (.fire i)) : s'.Attuned := by
  refine h.of_changed hg hregular hs ?_ hsub hp
  rw [hl]
  refine h.names.congr fun v hv => ?_
  obtain ⟨name, rfl⟩ := hv
  rw [hs]
  exact listed_kept (fun x => (hg x).1) fun x hx heq => hears x hx heq name

/-- Whatever leaves registrations and listeners alone, and adds no job that makes a registration fire. -/
theorem mono (h : s.Attuned) (hr : s'.registrations = s.registrations) (hl : s'.listeners = s.listeners)
    (hp : ∀ i, s'.loop.pending (.fire i) ≤ s.loop.pending (.fire i)) : s'.Attuned := by
  have hs : s'.standings = changed 0 (fun x => x) s.standings := by
    rw [changed_self]
    exact congrArg (List.map Registration.standing) hr
  exact h.revised (fun _ => ⟨rfl, rfl, rfl⟩) (hr ▸ h.regular) hs (fun _ _ _ _ => rfl) (congrArg named hl)
    (fun e he i hi => ⟨e, hl ▸ he, rfl, hi⟩) hp

/-! ### Registering -/

/-- A new registration. -/
theorem added (h : s.Attuned) {x : Standing} (hid : x.id = s.registrations.length)
    (hregular : ∀ r ∈ s'.registrations, r.Regular) (hs : s'.standings = s.standings ++ [x])
    (hnames : Indexes Value.same IsName (named s'.listeners) fun v => listed (Standing.hears v.text?) s'.standings)
    (hl : ∀ e ∈ s'.listeners, ∀ i ∈ e.2, (∃ y ∈ s.listeners, y.1 = e.1 ∧ i ∈ y.2) ∨
      i = x.id ∧ x.kind = .listener ∧ x.event.text? = e.1.text?)
    (hp : ∀ i, s'.loop.pending (.fire i) ≤ s.loop.pending (.fire i) + if x.kind ≠ .listener ∧ x.id = i then 1 else 0) :
    s'.Attuned := by
  have hlen : s'.registrations.length = s.registrations.length + 1 := by
    simpa [standings] using congrArg List.length hs
  refine ⟨?_, hregular, hnames, fun e he i hi => ?_, fun y hy hk => ?_, fun i hi => ?_⟩
  · rw [hs, List.map_append, h.numbered, hlen, List.range_succ, List.map_singleton, hid]
  · rw [hs]
    rcases hl e he i hi with ⟨e', he', hkey, hi'⟩ | ⟨rfl, hk⟩
    · obtain ⟨y, hy, hyi⟩ := h.heard e' he' i hi'
      exact ⟨y, List.mem_append_left _ hy, hkey ▸ hyi⟩
    · exact ⟨x, List.mem_append_right _ (List.mem_singleton.mpr rfl), rfl, hk⟩
  · have hle := hp y.id
    rw [hs] at hy
    rcases List.mem_append.mp hy with hy | hy
    · have hne : ¬(x.kind ≠ .listener ∧ x.id = y.id) := fun hboth => Nat.ne_of_gt (hid ▸ h.lt_length hy) hboth.2
      rw [h.deaf y hy hk, if_neg hne] at hle
      exact Nat.le_zero.mp hle
    · obtain rfl := List.mem_singleton.mp hy
      rw [h.fresh _ (Nat.le_of_eq hid.symm), if_neg fun hboth => hboth.1 hk] at hle
      exact Nat.le_zero.mp hle
  · have hle := hp i
    have hne : ¬(x.kind ≠ .listener ∧ x.id = i) := fun hboth => by
      have heq := hboth.2
      omega
    rw [h.fresh i (by omega), if_neg hne] at hle
    exact Nat.le_zero.mp hle

/-- A registration is tracked that is no listener, and perhaps its timer set. -/
theorem tracked (h : s.Attuned) {r : Registration Firing} (hk : r.kind ≠ .listener) (hevent : r.event = .null)
    (hgrows : s.Grows s') (hsets : Sets (.fire s.registrations.length) (s.track r).2 s') : s'.Attuned := by
  have hl : s'.listeners = s.listeners := hsets.names
  have hs := hsets.standings.trans (InStep.standings_track s r)
  have hnew : (r.standing).kind ≠ .listener := hk
  refine h.added rfl (hgrows.regular h.regular) hs ?_ (fun e he i hi => .inl ⟨e, hl ▸ he, rfl, hi⟩) fun i => ?_
  · rw [hl]
    refine h.names.congr fun v hv => ?_
    obtain ⟨name, rfl⟩ := hv
    rw [hs, listed_append, if_neg]
    simp [Standing.hears, Registration.standing, hevent, Value.text?]
  · have hle : s'.loop.pending (.fire i) ≤ s.loop.pending (.fire i) +
        if Job.fire s.registrations.length = .fire i then 1 else 0 := hsets.pending (.fire i)
    simpa only [hnew, ne_eq, not_false_eq_true, true_and, Job.fire.injEq] using hle

theorem callLater (h : s.Attuned) (owner : String) (delay : Value) (port : String) :
    (s.callLater .fire owner delay ⟨owner, port, .nothing⟩).2.Attuned := by
  have hgrows := Grows.callLater s owner delay port
  unfold Scheduler.callLater at hgrows ⊢
  dsimp only at hgrows ⊢
  split at hgrows
  · next harm => exact h.tracked (by simp) rfl hgrows (.armAfter harm)
  · exact h.tracked (by simp) rfl hgrows (.refl _ _)

theorem every (h : s.Attuned) (owner : String) (seconds : Value) (port : String) :
    (s.every .fire owner seconds ⟨owner, port, .tick⟩).2.Attuned := by
  have hgrows := Grows.every s owner seconds port
  unfold Scheduler.every at hgrows ⊢
  split
  · exact h
  · next hperiod =>
    rw [hperiod] at hgrows
    dsimp only at hgrows ⊢
    split at hgrows
    · next harm => exact h.tracked (by simp) rfl hgrows (.armAfter harm)
    · exact h.tracked (by simp) rfl hgrows (.refl _ _)

theorem listen (h : s.Attuned) (owner : String) (event : Value) (port : String) :
    (s.listen owner event ⟨owner, port, .payload⟩).2.Attuned := by
  let x : Standing := ⟨s.registrations.length, owner, .listener, event, 0, false⟩
  have hs : (s.listen owner event ⟨owner, port, .payload⟩).2.standings = s.standings ++ [x] := by
    have htrack := InStep.standings_track s
      { id := 0, owner := owner, kind := .listener, callback := ⟨owner, port, .payload⟩, event := event }
    unfold Scheduler.listen
    dsimp only
    split <;> exact htrack
  have hl : (s.listen owner event ⟨owner, port, .payload⟩).2.listeners =
      if event.hashable then indexed Value.same event x.id s.listeners else s.listeners := by
    unfold Scheduler.listen
    dsimp only
    split <;> rfl
  have hloop : (s.listen owner event ⟨owner, port, .payload⟩).2.loop = s.loop := by
    unfold Scheduler.listen
    dsimp only
    split <;> rfl
  have hregular := (Grows.listen s owner event port).regular h.regular
  refine h.added (x := x) rfl hregular hs ?_ (fun e he i hi => ?_) fun i => ?_
  · rw [hs, hl]
    cases htext : event.text? with
    -- an event that is no text changes nothing under any name
    | none =>
      have hsame : named (if event.hashable then indexed Value.same event x.id s.listeners else s.listeners) =
          named s.listeners := by
        split
        · exact named_indexed_of_none htext _ _
        · rfl
      rw [hsame]
      refine h.names.congr fun v hv => ?_
      obtain ⟨name, rfl⟩ := hv
      rw [listed_append, if_neg]
      have hne : ¬(x.event.text? == some name) = true := by rw [show x.event.text? = none from htext]; nofun
      simp only [Standing.hears, Value.text?, Bool.and_eq_true, not_and]
      exact fun _ => hne
    | some name =>
      obtain rfl := text?_eq_some.mp htext
      rw [if_pos (by rfl), named_indexed_str]
      refine h.names.indexed decides_name ⟨name, rfl⟩ ?_ fun v hv hne => ?_
      · rw [listed_append, if_pos]
        simp [Standing.hears, Standing.isActive, x, Value.text?]
      · obtain ⟨other, rfl⟩ := hv
        have hother : name ≠ other := fun heq => hne (by rw [heq])
        rw [listed_append, if_neg]
        simp [Standing.hears, x, Value.text?, hother]
  · rw [hl] at he
    split at he
    · rcases mem_indexed he with he | rfl | ⟨y, hy, hkey, heq, hsame⟩
      · exact .inl ⟨e, he, rfl, hi⟩
      · exact .inr ⟨List.mem_singleton.mp hi, rfl, rfl⟩
      · rw [heq] at hi
        rcases List.mem_append.mp hi with hi | hi
        · exact .inl ⟨y, hy, hkey, hi⟩
        · exact .inr ⟨List.mem_singleton.mp hi, rfl, (text?_of_same_eq hsame).symm⟩
    · exact .inl ⟨e, he, rfl, hi⟩
  · rw [hloop]
    exact Nat.le_add_right _ _

/-! ### Cancelling -/

/-- A registration that is a listener leaves the index. -/
theorem listeners_forget (t : Scheduler Firing Job) (r : Registration Firing) :
    (t.forget r).2.listeners = t.listeners ∨ (t.forget r).2.listeners = withdrawn r.id t.listeners := by
  unfold Scheduler.forget
  dsimp only
  split
  · exact .inl rfl
  · split
    · exact .inr rfl
    · exact .inl rfl

theorem named_forget (t : Scheduler Firing Job) {r : Registration Firing}
    (hr : ∀ e ∈ t.listeners, r.id ∈ e.2 → e.1.text? = none) : named (t.forget r).2.listeners = named t.listeners := by
  rcases listeners_forget t r with heq | heq
  · rw [heq]
  · rw [heq, named_withdrawn_of_none hr]

theorem subset_forget (t : Scheduler Firing Job) (r : Registration Firing) :
    ∀ e ∈ (t.forget r).2.listeners, ∀ i ∈ e.2, ∃ x ∈ t.listeners, x.1 = e.1 ∧ i ∈ x.2 := by
  intro e he i hi
  rcases listeners_forget t r with heq | heq
  · exact ⟨e, heq ▸ he, rfl, hi⟩
  · exact subset_withdrawn (heq ▸ he) hi

theorem listeners_forget_str (t : Scheduler Firing Job) {r : Registration Firing} {name : String}
    (hr : r.event = .str name) : (t.forget r).2.listeners = withdrawn r.id t.listeners := by
  unfold Scheduler.forget
  rw [hr]
  rfl

theorem forget_same (t : Scheduler Firing Job) (r : Registration Firing) :
    (t.forget r).2.standings = t.standings ∧ (t.forget r).2.loop = t.loop := by
  unfold Scheduler.forget
  dsimp only
  split
  · exact ⟨rfl, rfl⟩
  · split <;> exact ⟨rfl, rfl⟩

theorem cancel (h : s.Attuned) (id : Nat) : (s.cancel id).2.Attuned := by
  have hregular := (Grows.cancel s id).regular h.regular
  cases hr : s.find? id with
  | none =>
    have hsame : (s.cancel id).2 = s := by simp only [Scheduler.cancel, hr]
    rw [hsame]
    exact h
  | some r =>
    cases hc : r.cancelled with
    | true =>
      have hsame : (s.cancel id).2 = s := by simp only [Scheduler.cancel, hr, hc, if_true]
      rw [hsame]
      exact h
    | false =>
      have hmodify := standings_modify s id (g := Standing.stopped) (f := fun r => { r with cancelled := true })
        fun _ => rfl
      have hid : r.id = id := id_of_find? hr
      -- the registration is marked, its timer taken away, and then it is forgotten
      obtain ⟨t, ht, hstandings, hlisteners, hpending⟩ : ∃ t : Scheduler Firing Job,
          (s.cancel id).2 = (t.forget r).2 ∧ t.standings = changed id Standing.stopped s.standings ∧
          t.listeners = s.listeners ∧ ∀ j, t.loop.pending j ≤ s.loop.pending j := by
        simp only [Scheduler.cancel, hr, hc, Bool.false_eq_true, if_false]
        cases r.handle with
        | none => exact ⟨_, rfl, hmodify, rfl, fun _ => Nat.le_refl _⟩
        | some handle => exact ⟨_, rfl, hmodify, rfl, fun j => Loop.pending_cancel_le s.loop handle j⟩
      rw [ht] at hregular ⊢
      obtain ⟨hsame, hloop⟩ := forget_same t r
      have hs : (t.forget r).2.standings = changed id Standing.stopped s.standings := hsame.trans hstandings
      have hp : ∀ i, (t.forget r).2.loop.pending (.fire i) ≤ s.loop.pending (.fire i) := by
        intro i
        rw [hloop]
        exact hpending _
      have hsub := subset_forget t r
      rw [hlisteners] at hsub
      have hheld : ∀ e ∈ s.listeners, r.id ∈ e.2 → e.1.text? = r.event.text? := fun e he =>
        h.text?_of_held (mem_of_find? hr) he
      cases htext : r.event.text? with
      | none =>
        have hnone : ∀ e ∈ t.listeners, r.id ∈ e.2 → e.1.text? = none := by
          rw [hlisteners, ← htext]
          exact hheld
        refine h.revised (g := Standing.stopped) (fun _ => ⟨rfl, rfl, rfl⟩) hregular hs (fun x hx heq name => ?_)
          ((named_forget t hnone).trans (congrArg named hlisteners)) hsub hp
        obtain rfl := h.eq_of_id hx (List.mem_map_of_mem (mem_of_find? hr)) (heq.trans hid.symm)
        simp [Standing.hears, Standing.stopped, Registration.standing, htext]
      | some name =>
        have hname := text?_eq_some.mp htext
        have hsome : ∀ e ∈ s.listeners, id ∈ e.2 → e.1.text?.isSome = true := fun e he hin => by
          rw [hheld e he (hid ▸ hin), htext]
          rfl
        refine h.of_changed (g := Standing.stopped) (fun _ => ⟨rfl, rfl, rfl⟩) hregular hs ?_ hsub hp
        rw [listeners_forget_str t hname, hlisteners, hid, named_withdrawn hsome, hs]
        refine h.names.withdrawn decides_name ⟨name, rfl⟩ (fun v hv hin => ?_) ?_ fun v hv hne => ?_
        · obtain ⟨other, rfl⟩ := hv
          obtain ⟨x, hx, hhears, heq⟩ := mem_listed.mp hin
          obtain rfl := h.eq_of_id hx (List.mem_map_of_mem (mem_of_find? hr)) (heq.trans hid.symm)
          rw [Standing.hears, Bool.and_eq_true] at hhears
          exact congrArg Value.str (Option.some.inj ((beq_iff_eq.mp hhears.2).symm.trans htext))
        · exact listed_dropped h.nodup (fun _ => rfl) fun x _ _ => by simp [Standing.hears]
        · obtain ⟨other, rfl⟩ := hv
          have hother : name ≠ other := fun heq => hne (by rw [heq])
          refine listed_kept (fun _ => rfl) fun x hx heq => ?_
          obtain rfl := h.eq_of_id hx (List.mem_map_of_mem (mem_of_find? hr)) (heq.trans hid.symm)
          have hne : (name == other) = false := beq_eq_false_iff_ne.mpr hother
          simp [Standing.hears, Registration.standing, hname, Value.text?, hne, Standing.stopped]

/-! ### Operations -/

/-- Only listeners hear of events. -/
theorem hears (h : s.Attuned) {event : Value} {ids : List Nat} (hids : s.listenersFor event = .ok ids) {id : Nat}
    (hid : id ∈ ids) : ∃ x ∈ s.standings, x.id = id ∧ x.kind = .listener := by
  unfold Scheduler.listenersFor at hids
  split at hids
  · obtain rfl := Except.ok.inj hids
    split at hid
    · next e he =>
      obtain ⟨x, hx, hxid, hk, -⟩ := h.heard e (List.mem_of_find?_eq_some he) id hid
      exact ⟨x, hx, hxid, hk⟩
    · cases hid
  · cases hids

variable {P : Nat → Prop}

/-- Operations leave registrations what they are. -/
theorem grows (h : s.Attuned) (ha : s.Act P s') : s.Grows s' := by
  cases ha with
  | soon | wait => exact .of_eq rfl
  | sleep hP hsleep =>
    obtain ⟨-, due, rfl⟩ := Scheduler.sleep_eq_ok hsleep
    exact .of_eq rfl
  | settle i outcome =>
    refine .of_eq ?_
    unfold Scheduler.settle
    split
    · rfl
    · split <;> rfl
  | endSleep i =>
    refine .of_eq ?_
    unfold Scheduler.endSleep
    split <;> rfl
  | callLater owner delay port => exact .callLater s owner delay port
  | every owner seconds port => exact .every s owner seconds port
  | listen owner event port => exact .listen s owner event port
  | cancel id => exact .cancel s id
  | hear hids hid =>
    obtain ⟨x, hx, hxid, hk⟩ := h.hears hids hid
    refine .modify s _ fun r hr hrid => ⟨rfl, rfl, rfl, rfl, rfl, fun hinterval => ?_⟩
    obtain rfl := h.eq_of_id (List.mem_map_of_mem hr) hx (hrid.trans hxid.symm)
    cases hk.symm.trans hinterval

/-- A registration is called. -/
theorem call (h : s.Attuned) (id : Nat) : (s.modify id fun r => { r with fired := r.fired + 1 }).Attuned := by
  refine h.revised (g := Standing.called) (fun _ => ⟨rfl, rfl, rfl⟩) (fun r hr => ?_) (InStep.standings_call s id)
    (fun x hx _ name => ?_) rfl (fun e he i hi => ⟨e, he, rfl, hi⟩) fun _ => Nat.le_refl _
  · obtain ⟨x, hx, rfl⟩ := List.mem_map.mp hr
    have hold := h.regular x hx
    split
    · exact ⟨hold.node, hold.carried, hold.event⟩
    · exact hold
  · by_cases hk : x.kind = .listener
    · have hne : (x.kind != .timer) = true := by rw [hk]; rfl
      rw [Standing.hears, Standing.hears, Standing.isActive_called]
      simp [hne, Standing.called]
    · obtain ⟨r, hr, rfl⟩ := List.mem_map.mp hx
      have hevent : r.event = .null := (h.regular r hr).event hk
      simp [Standing.hears, Standing.called, Registration.standing, hevent, Value.text?]

/-- Every operation keeps the invariant. -/
theorem act (h : s.Attuned) (hsound : s.Sound) (ha : s.Act P s') : s'.Attuned := by
  cases ha with
  | soon hj hP =>
    refine h.mono rfl rfl fun i => Nat.le_of_eq ?_
    rw [Loop.pending_soon, if_neg, Nat.add_zero]
    rintro rfl
    cases hj
  | wait due hP =>
    refine h.mono rfl rfl fun i => Nat.le_of_eq ?_
    rw [Loop.pending_addTimer, if_neg Job.noConfusion, Nat.add_zero]
  | sleep hP hsleep =>
    obtain ⟨-, due, rfl⟩ := Scheduler.sleep_eq_ok hsleep
    refine h.mono rfl rfl fun i => Nat.le_of_eq ?_
    rw [Loop.pending_addTimer, if_neg Job.noConfusion, Nat.add_zero]
  | settle i outcome =>
    unfold Scheduler.settle
    split
    · exact h
    · next x hx =>
      split
      · exact h
      · refine h.mono rfl rfl fun id => Nat.le_of_eq ?_
        obtain ⟨strand, hresume⟩ := hsound.resumes x (List.mem_of_find?_eq_some hx)
        rw [Loop.pending_soon, hresume, if_neg Job.noConfusion, Nat.add_zero]
  | endSleep i =>
    unfold Scheduler.endSleep
    split
    · exact h
    · exact h.mono rfl rfl fun id => Loop.pending_cancel_le _ _ _
  | callLater owner delay port => exact h.callLater owner delay port
  | every owner seconds port => exact h.every owner seconds port
  | listen owner event port => exact h.listen owner event port
  | cancel id => exact h.cancel id
  | hear hids hid => exact h.call _

/-! ### Firing -/

theorem takes (h : s.Attuned) {j : Job} {loop : Loop Job} (ht : s.loop.Takes j loop) :
    Attuned { s with loop := loop } := by
  refine h.mono rfl rfl fun i => ?_
  rw [Loop.pending_of_takes ht (.fire i)]
  exact Nat.le_add_right _ _

/-- No job makes a listener fire. -/
theorem ne_listener (h : s.Attuned) {id : Nat} {loop : Loop Job} (ht : s.loop.Takes (.fire id) loop)
    {r : Registration Firing} (hr : s.find? id = some r) : r.kind ≠ .listener := by
  intro hk
  have hdeaf := h.deaf r.standing (List.mem_map_of_mem (mem_of_find? hr)) hk
  rw [Loop.pending_of_takes ht, if_pos] at hdeaf
  · cases hdeaf
  · exact congrArg Job.fire (id_of_find? hr).symm

/-- The timer of an interval is set. -/
theorem sets (h : s.Attuned) {r : Registration Firing} (hr : r ∈ s.registrations) (hk : r.kind ≠ .listener)
    (hregular : ∀ r ∈ s'.registrations, r.Regular) (hsets : Sets (.fire r.id) s s') : s'.Attuned := by
  obtain ⟨hs, -, hl, hp⟩ := hsets
  have hlen : s'.registrations.length = s.registrations.length := by
    simpa [standings] using congrArg List.length hs
  have hmem : r.standing ∈ s.standings := List.mem_map_of_mem hr
  have hother : ∀ i, i ≠ r.id → s.loop.pending (.fire i) = 0 → s'.loop.pending (.fire i) = 0 := by
    intro i hne hzero
    have hle := hp (.fire i)
    rw [hzero, if_neg fun heq => hne (Job.fire.inj heq).symm] at hle
    exact Nat.le_zero.mp hle
  refine ⟨?_, hregular, ?_, ?_, fun x hx hlistener => ?_, fun i hi => ?_⟩
  · rw [hs, hlen]
    exact h.numbered
  · rw [hs, hl]
    exact h.names
  · rw [hs, hl]
    exact h.heard
  · rw [hs] at hx
    refine hother x.id (fun heq => ?_) (h.deaf x hx hlistener)
    obtain rfl := h.eq_of_id hx hmem heq
    exact hk hlistener
  · rw [hlen] at hi
    have hlt := h.lt_length hmem
    exact hother i (Nat.ne_of_gt (hlt.trans_le hi)) (h.fresh i hi)

/-- What is done before a timer or an interval is called. -/
theorem firing (h : s.Attuned) {r : Registration Firing} (hr : r ∈ s.registrations) (hk : r.kind ≠ .listener) :
    (s.firing .fire r).Attuned := by
  have hregular := (Grows.firing s r).regular h.regular
  cases hkind : r.kind with
  | timer =>
    have heq : s.firing .fire r = (s.forget r).2 := by simp only [Scheduler.firing, hkind]
    have hevent := (h.regular r hr).event hk
    obtain ⟨hs, hloop⟩ := forget_same s r
    rw [heq] at hregular ⊢
    have hchanged : (s.forget r).2.standings = changed 0 (fun x => x) s.standings := by rw [changed_self, hs]
    refine h.revised (fun _ => ⟨rfl, rfl, rfl⟩) hregular hchanged (fun _ _ _ _ => rfl)
      (named_forget s fun e he hid => ?_) (subset_forget s r) fun i => ?_
    · rw [h.text?_of_held hr he hid, hevent]
      rfl
    · rw [hloop]
  | interval =>
    have heq : s.firing .fire r = s.rearm r .fire := by simp only [Scheduler.firing, hkind]
    rw [heq] at hregular ⊢
    exact h.sets hr hk hregular (.rearm _ s r)
  | listener => exact absurd hkind hk

/-! ### The listeners for an event -/

theorem map_id_hearing (h : s.Attuned) (name : String) :
    (s.hearing name).map Registration.id = listed (Standing.hears (some name)) s.standings := by
  have hfilter : s.hearing name = s.registrations.filter fun r => r.standing.hears (some name) := by
    refine List.filter_congr fun r hr => ?_
    cases hk : r.kind with
    | listener =>
      have hne : (r.standing.kind == .timer) = false := by rw [show r.standing.kind = _ from hk]; rfl
      simp only [Standing.hears, Standing.isActive, hne]
      simp [Registration.standing]
    | timer | interval =>
      have hevent : r.event = .null := (h.regular r hr).event (by rw [hk]; decide)
      simp [Standing.hears, Registration.standing, hevent, Value.text?]
  rw [hfilter, listed, standings, List.filter_map, List.map_map]
  rfl

theorem under_named (name : String) (l : List (Value × List Nat)) :
    under Value.same (.str name) (named l) = under Value.same (.str name) l := by
  induction l with
  | nil => rfl
  | cons e rest ih =>
    rw [named_cons, under_cons]
    by_cases hsame : Value.same (.str name) e.1 = true
    · have htext : e.1.text?.isSome = true := by rw [Value.str_same_iff.mp hsame]; rfl
      rw [if_pos htext, under_cons, if_pos hsame, if_pos hsame]
    · rw [if_neg hsame, ← ih]
      split
      · rw [under_cons, if_neg hsame]
      · rfl

/-- An event goes to its listeners in the order in which they were registered. -/
theorem listenersFor (h : s.Attuned) (name : String) :
    s.listenersFor (.str name) = .ok ((s.hearing name).map Registration.id) := by
  have hfound : under Value.same (.str name) (named s.listeners) = _ := h.names.found (.str name) ⟨name, rfl⟩
  rw [under_named] at hfound
  rw [h.map_id_hearing name, show some name = (Value.str name).text? from rfl, ← hfound, Scheduler.listenersFor,
    if_pos (by rfl), under]
  cases s.listeners.find? fun e => (Value.str name).same e.1 <;> rfl

end Attuned

/-! ## Counting -/

/-- Whether an interval has fired a number of times, if it is registered at all. -/
def Counts (s : Scheduler Firing Job) (id k : Nat) : Prop :=
  match s.find? id with
  | none => k = 0
  | some r => r.kind = .interval → r.fired = k

namespace Counts

variable {id k : Nat}

theorem grows (h : s.Counts id k) (hg : s.Grows s') : s'.Counts id k := by
  unfold Counts at h ⊢
  rcases hg.find? id with ⟨r, r', hr, hr', hstays⟩ | ⟨hnone, hnew⟩
  · rw [hr] at h
    rw [hr']
    intro hk
    have hkind : r.kind = .interval := hstays.kind ▸ hk
    exact (hstays.fired hkind).trans (h hkind)
  · rw [hnone] at h
    cases hr' : s'.find? id with
    | none => exact h
    | some r' => exact fun hk => (hnew r' hr' hk).trans h.symm

/-- The loop makes a registration fire. -/
theorem fires (h : s.Counts id k) {i : Nat} {r : Registration Firing} (hr : s.find? i = some r) :
    ((s.firing .fire r).modify i fun r => { r with fired := r.fired + 1 }).Counts id
      (if i = id ∧ r.kind = .interval then k + 1 else k) := by
  have hafter := h.grows (Grows.firing s r)
  have hfind := find?_modify (s.firing .fire r) i id (f := fun r => { r with fired := r.fired + 1 }) fun _ => rfl
  unfold Counts at hafter ⊢
  rw [hfind]
  rcases (Grows.firing s r).find? i with ⟨x, x', hx, hx', hstays⟩ | ⟨hnone, -⟩
  · obtain rfl := Option.some.inj (hr.symm.trans hx)
    by_cases hid : i = id
    · subst hid
      rw [hx'] at hafter ⊢
      rw [Option.map_some, if_pos (by simpa using id_of_find? hx')]
      intro hk
      have hkind : r.kind = .interval := hstays.kind ▸ hk
      rw [if_pos ⟨rfl, hkind⟩]
      exact congrArg (· + 1) (hafter hk)
    · rw [if_neg fun hboth => hid hboth.1]
      cases hy : (s.firing .fire r).find? id with
      | none =>
        rw [hy] at hafter
        exact hafter
      | some y =>
        rw [hy] at hafter
        have hne : ¬(y.id == i) = true := by simpa [id_of_find? hy] using Ne.symm hid
        rw [Option.map_some, if_neg hne]
        exact hafter
  · rw [hr] at hnone
    cases hnone

end Counts

end Scheduler

end Patchbay
