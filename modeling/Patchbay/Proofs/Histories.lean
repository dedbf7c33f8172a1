import Patchbay.Engine.Session
import Patchbay.Proofs.Effects
import Patchbay.Proofs.Interleaving

/-!
# Histories

A session as a sequence of steps in which what is registered is left to the engine: the loop may run its
jobs in any order and at any time, but registrations and sleeps change only by what the engine does. In
every state of such a session the scheduler is tidy and nodes are told apart by their serials.

Contents:
* `Play`: one step; `Opens`: how a session starts; `Reachable`.
* `Graph.Becomes`: what a command makes of a graph.
* `Engine.Turn.Effect`: what a step does.
* `Engine.Kempt`: the invariant.

Results:
* `Engine.evolves_command`, `Engine.becomes_command`: no command registers anything, and what it makes of the graph.
* `Reachable.kempt`: the invariant holds of every state that can be reached.
-/

namespace Patchbay

/-! ## Steps -/

/-- One step of an engine, in which the loop may run any job. -/
inductive Play : Engine.Turn → Engine.Turn → Prop
  /-- the strand that is under way has a turn -/
  | turn {t : Engine.Turn} {s : Strand} {sig : Signal} (h : t.next = some (s, sig)) :
      Play t (t.engine.turn s sig)
  /-- the loop runs a job, with any state of its queue and its timers -/
  | job {t : Engine.Turn} (h : t.next = none) (loop : Loop Job) (j : Job) :
      Play t ({ t.engine with scheduler := { t.engine.scheduler with loop := loop } }.handle j)
  /-- a request comes in -/
  | request {t : Engine.Turn} (h : t.next = none) (r : Request) :
      Play t ({ t.engine with nextStrand := t.engine.nextStrand + 1 }.go
        { id := t.engine.nextStrand, frames := [.session] } (.call (.request r)))

/-- What a session takes is such a step. -/
theorem Play.of_advance {t t' : Engine.Turn} (h : Engine.advance t = some t') : Play t t' := by
  unfold Engine.advance at h
  split at h
  · next hn =>
    obtain rfl := Option.some.inj h
    exact .turn hn
  · next hn =>
    split at h
    · cases h
    · split at h
      · cases h
      · next loop _ =>
        obtain rfl := Option.some.inj h
        exact .job hn loop _

theorem Play.step {t t' : Engine.Turn} (h : Play t t') : Step t t' := by
  cases h with
  | turn hn => exact .turn hn
  | job hn loop j => exact .job hn _ j
  | request hn r => exact .request hn r

/-- What is under way goes on before anything else does. -/
theorem Play.eq_turn {t t' : Engine.Turn} (h : Play t t') {s : Strand} {sig : Signal}
    (hn : t.next = some (s, sig)) : t' = t.engine.turn s sig :=
  h.step.eq_turn hn

/-- Whether a session opens in a state. Its graph has a serial for each node. -/
def Opens (t : Engine.Turn) : Prop :=
  ∃ config registry graph shortest requests, graph.Numbered ∧
    t = opening (.initial config registry graph shortest) requests

/-- The states of sessions. -/
inductive Reachable : Engine.Turn → Prop
  | start {t : Engine.Turn} (h : Opens t) : Reachable t
  | play {t t' : Engine.Turn} (h : Reachable t) (hp : Play t t') : Reachable t'

/-! ## The invariant -/

namespace Graph

theorem Grows.addRecord {β : Type} {r : Registry β} {x : NodeRecord} {g g' : Graph}
    (h : g.addRecord r x = .ok g') : g.Grows g' := by
  obtain ⟨k, n, g₁, -, hadd, rfl⟩ := addRecord_eq_ok h
  exact (Grows.addNode hadd).trans (.modifyNode g₁ x.id fun _ => ⟨rfl, rfl⟩)

/-- The graph of a document grows from one without nodes. -/
theorem Grows.ofDocument {β : Type} {r : Registry β} {m : Matcher} {first : Nat} {d : Document} {g : Graph}
    (h : Graph.ofDocument r m first d = .ok g) : Grows { matcher := m, nextSerial := first } g :=
  ofDocument_induction (.refl _) (fun _ _ _ _ hg hx => hg.trans (.addRecord hx))
    (fun _ _ _ _ hg hx => hg.trans (.addEdge hx)) h

/-- What a command makes of a graph: it grows, it loses nodes, or another one takes its place. -/
inductive Becomes (g g' : Graph) : Prop
  | grows (h : g.Grows g')
  | loses {g₁ : Graph} (h : g.Grows g₁) {p : Node → Bool} (hn : g'.nodes = g₁.nodes.filter p)
      (hs : g'.nextSerial = g₁.nextSerial)
  | replaced {m : Matcher} {first : Nat} (h : Grows { matcher := m, nextSerial := first } g')

namespace Becomes

variable {g g' : Graph}

theorem numbered (h : g.Becomes g') (hg : g.Numbered) : g'.Numbered := by
  cases h with
  | grows h => exact h.numbered hg
  | loses h hn hs =>
    have hgrown := h.numbered hg
    refine ⟨?_, fun n hmem => ?_⟩
    · rw [hn]
      exact hgrown.serials.sublist (List.filter_sublist.map _)
    · rw [hn] at hmem
      rw [hs]
      exact hgrown.next n (List.mem_of_mem_filter hmem)
  | replaced h => exact h.numbered ⟨List.nodup_nil, by simp⟩

theorem distinct (h : g.Becomes g') (hg : (g.nodes.map Node.id).Nodup) : (g'.nodes.map Node.id).Nodup := by
  cases h with
  | grows h => exact h.distinct hg
  | loses h hn hs =>
    rw [hn]
    exact (h.distinct hg).sublist (List.filter_sublist.map _)
  | replaced h => exact h.distinct List.nodup_nil

end Becomes

end Graph

namespace Engine

/-- The invariant of an engine: its scheduler is tidy, and its nodes are told apart. -/
structure Kempt (e : Engine) : Prop where
  scheduler : e.scheduler.Tidy
  graph : e.graph.Numbered

section Commands

variable {P : String → Prop} {e e' : Engine}

theorem Kempt.keeps (h : e.Kempt) (hk : e.Keeps P e') : e'.Kempt :=
  ⟨hk.scheduler.tidy h.scheduler, hk.graph.numbered h.graph⟩

theorem grows_beginRun (e : Engine) : e.graph.Grows e.beginRun.graph :=
  .map (f := fun n => { n with error := none }) (fun _ => ⟨rfl, rfl⟩) rfl rfl

theorem Kempt.beginRun (h : e.Kempt) : e.beginRun.Kempt :=
  ⟨h.scheduler, (grows_beginRun e).numbered h.graph⟩

/-- No command registers anything. -/
theorem evolves_command (e : Engine) (c : Command) :
    e.scheduler.Evolves P (e.command c).2.scheduler := by
  cases hc : c.clears with
  | false => exact (Keeps.command e hc).scheduler
  | true =>
    have hstop : e.scheduler.Evolves P e.stop.2.scheduler := (Keeps.stop e).scheduler
    rcases command_clears e hc with ⟨id, -, h⟩ | ⟨text, -, h | ⟨d, g, -, h⟩⟩ | ⟨-, h⟩ | ⟨text, -, h⟩
    · rw [h]
      rcases removeNode_cases e id with h | ⟨n, -, h | ⟨-, m, g, -, h⟩⟩
      · rw [h]
        exact .refl _
      · rw [h]
        exact (Keeps.disarm e n).scheduler
      · rw [h]
        exact (Keeps.disarm e n).scheduler
    · rw [h]
      exact .refl _
    · rw [h]
      exact .refl _
    · rw [h]
      exact hstop
    · rw [h]
      rcases load_cases e text with ⟨-, h⟩ | h | ⟨-, d, g, -, h⟩
      · rw [h]
        exact .refl _
      · rw [h]
        exact hstop
      · rw [h]
        exact hstop

theorem becomes_readGraph {m : Matcher} {text : String} {d : Document} {g : Graph}
    (h : e.readGraph m text = .ok (d, g)) (g₀ : Graph) : g₀.Becomes g :=
  .replaced (.ofDocument (readGraph_eq_ok h))

theorem becomes_command (e : Engine) (c : Command) : e.graph.Becomes (e.command c).2.graph := by
  cases hc : c.clears with
  | false => exact .grows (Keeps.command (P := fun _ => False) e hc).graph
  | true =>
    have hstop : e.graph.Grows e.stop.2.graph := (Keeps.stop (P := fun _ => False) e).graph
    rcases command_clears e hc with ⟨id, -, heq⟩ | ⟨text, -, heq | ⟨d, g, hread, heq⟩⟩ | ⟨-, heq⟩ |
      ⟨text, -, heq⟩
    · rw [heq]
      rcases removeNode_cases e id with heq | ⟨n, -, heq | ⟨-, m, g, hremove, heq⟩⟩
      · rw [heq]
        exact .grows (.refl _)
      · rw [heq]
        exact .grows (Keeps.disarm (P := fun _ => False) e n).graph
      · have hd := (Keeps.disarm (P := fun _ => False) e n).graph
        obtain ⟨-, rfl⟩ := Graph.removeNode_eq_ok hremove
        rw [heq]
        exact .loses hd rfl rfl
    · rw [heq]
      exact .grows (.refl _)
    · rw [heq]
      exact becomes_readGraph hread _
    · rw [heq]
      exact .grows hstop
    · rw [heq]
      rcases load_cases e text with ⟨-, heq⟩ | heq | ⟨-, d, g, hread, heq⟩
      · rw [heq]
        exact .grows (.refl _)
      · rw [heq]
        exact .grows hstop
      · rw [heq]
        exact becomes_readGraph hread _

theorem Kempt.command (h : e.Kempt) (c : Command) : (e.command c).2.Kempt :=
  ⟨(evolves_command (P := fun _ => False) e c).tidy h.scheduler, (becomes_command e c).numbered h.graph⟩

end Commands

end Engine

/-- What a step does to an engine. -/
inductive Engine.Turn.Effect (t : Engine.Turn) (e' : Engine) : Prop
  | keeps (h : t.engine.Keeps t.Registers e')
  | begins (h : t.engine.beginRun.Keeps (fun _ => False) e')
  /-- a step takes nodes off the queue, and may begin a run -/
  | steps (hs : t.AsksStep) (queue : List String)
      (h : e' = t.engine.withQueue queue ∨ e' = t.engine.beginRun.withQueue queue)
  | carries {c : Command} (hc : t.Carries c) (h : e' = (t.engine.command c).2)

theorem Play.effect {t t' : Engine.Turn} (hp : Play t t') : t.Effect t'.engine := by
  cases hp with
  | turn hn =>
    next s sig =>
    cases t.engine.turn_effect s sig with
    | keeps h => exact .keeps (h.mono fun owner hreg => ⟨s, sig, hn, hreg⟩)
    | begins _ h => exact .begins h
    | steps hs queue h => exact .steps ⟨s, hs ▸ hn⟩ queue (h.imp_right And.right)
    | carries hc h => exact .carries ⟨s, sig, hn, hc⟩ h
  | job hn loop j => exact .keeps (.job t.engine loop j)
  | request hn r => exact .keeps (.of_eq rfl rfl rfl rfl rfl rfl)

theorem Play.kempt {t t' : Engine.Turn} (hp : Play t t') (h : t.engine.Kempt) : t'.engine.Kempt := by
  cases hp.effect with
  | keeps hk => exact h.keeps hk
  | begins hk => exact h.beginRun.keeps hk
  | steps _ queue heq =>
    rcases heq with heq | heq
    · rw [heq]
      exact ⟨h.scheduler, h.graph⟩
    · rw [heq]
      exact ⟨h.scheduler, h.beginRun.graph⟩
  | carries _ heq =>
    rw [heq]
    exact h.command _

theorem Opens.kempt {t : Engine.Turn} (h : Opens t) : t.engine.Kempt := by
  obtain ⟨config, registry, graph, shortest, requests, hg, rfl⟩ := h
  have hinitial : (Engine.initial config registry graph shortest).Kempt := ⟨.initial shortest, hg⟩
  exact hinitial.keeps (P := fun _ => False)
    ((Engine.Keeps.nextRequest _ _).from_eq rfl rfl rfl rfl rfl rfl)

/-- In every state of a session the engine is kempt. -/
theorem Reachable.kempt {t : Engine.Turn} (h : Reachable t) : t.engine.Kempt := by
  induction h with
  | start h => exact h.kempt
  | play _ hp ih => exact hp.kempt ih

theorem Reachable.follow {t : Engine.Turn} (h : Reachable t) (n : Nat) (L : Ledger) :
    Reachable (follow n (t, L)).1 := by
  induction n generalizing t L with
  | zero => exact h
  | succ n ih =>
    rw [Patchbay.follow]
    split
    · exact h
    · next ht => exact ih (h.play (.of_advance ht)) _

end Patchbay
