import Patchbay.Proofs.Telling

/-!
# New errors

The errors of questions and commands are new ones: observers have not been told of them. Only where an
invocation ends with an error is the error reported, so an error that a behaviour gets as an answer and
raises is reported at its own node.

Contents:
* `Unreported`: a computation whose errors are new.

Results:
* `unreported_command`, `unreported_perform`: the errors of commands and of questions are new.
-/

namespace Patchbay

/-- Whether the error of a computation, if it has one, is new. -/
def Unreported {α : Type} (x : Except Raised α) : Prop := ∀ err, x = .error err → err.silent = false

namespace Unreported

variable {α γ σ : Type}

theorem ok (a : α) : Unreported (.ok a) := by
  rintro _ ⟨⟩

theorem error {err : Raised} (h : err.silent = false) : Unreported (.error err : Except Raised α) := by
  rintro _ ⟨⟩
  exact h

theorem lift (x : Except Fault α) : Unreported (Fault.lift x) := by
  cases x with
  | ok a => exact .ok a
  | error f => exact .error rfl

theorem bind {x : Except Raised α} {f : α → Except Raised γ} (hx : Unreported x)
    (hf : ∀ a, Unreported (f a)) : Unreported (x >>= f) := by
  cases x with
  | ok a => exact hf a
  | error err => exact .error (hx err rfl)

theorem map {x : Except Raised α} {f : α → γ} (hx : Unreported x) : Unreported (x.map f) := by
  cases x with
  | ok a => exact .ok _
  | error err => exact .error (hx err rfl)

theorem foldlM {f : σ → α → Except Raised σ} (hf : ∀ s a, Unreported (f s a)) (l : List α) (s : σ) :
    Unreported (l.foldlM f s) := by
  induction l generalizing s with
  | nil => exact .ok s
  | cons a rest ih =>
    rw [List.foldlM_cons]
    exact (hf s a).bind ih

theorem mapM {f : α → Except Raised γ} (hf : ∀ a, Unreported (f a)) (l : List α) : Unreported (l.mapM f) := by
  induction l with
  | nil => exact .ok []
  | cons a rest ih =>
    rw [List.mapM_cons]
    exact (hf a).bind fun b => ih.bind fun bs => .ok _

end Unreported

/-! ## Graphs -/

namespace Graph

variable {β : Type} (g : Graph) (r : Registry β)

theorem unreported_lookup (kind : String) : Unreported (r.lookup kind) := by
  unfold Registry.lookup
  split
  · exact .ok _
  · exact .error rfl

theorem unreported_requireNode (id : String) : Unreported (g.requireNode id) := by
  unfold requireNode
  split
  · exact .ok _
  · exact .error rfl

theorem unreported_kindOf (id : String) : Unreported (g.kindOf r id) :=
  (unreported_requireNode g id).bind fun n => unreported_lookup r n.kind

theorem unreported_isExecEdge (x : Edge) : Unreported (g.isExecEdge r x) := by
  unfold isExecEdge
  split
  · exact .error rfl
  · split <;> exact .ok _

theorem unreported_addNode (k : Kind β) (overrides : Named) (id : String) :
    Unreported (g.addNode k overrides id) := by
  have hliterals : Unreported (startingLiterals k id overrides) := by
    refine .foldlM (fun literals x => ?_) overrides _
    dsimp only
    split
    · exact .ok _
    · exact .error rfl
  unfold addNode
  split
  · exact .error rfl
  · exact hliterals.bind fun _ => .ok _

theorem unreported_removeNode (id : String) : Unreported (g.removeNode id) :=
  (unreported_requireNode g id).bind fun _ => .ok _

theorem unreported_addEdge (x : Edge) : Unreported (g.addEdge r x) := by
  refine (unreported_kindOf g r x.source).bind fun k => (unreported_kindOf g r x.dest).bind fun l => ?_
  split
  · exact .error rfl
  · exact .error rfl
  · split
    · exact .error rfl
    · split
      · exact .ok _
      · split
        · exact .ok _
        · split <;> exact .ok _

theorem unreported_setLiteral (id port : String) (v : Value) : Unreported (g.setLiteral r id port v) := by
  refine (unreported_requireNode g id).bind fun n => (unreported_lookup r n.kind).bind fun k => ?_
  split
  · exact .ok _
  · exact .error rfl

theorem unreported_retag (id kind : String) : Unreported (g.retag id kind) := by
  unfold retag
  split
  · exact .ok _
  · exact .error rfl

theorem unreported_toDocument (globals : Named) : Unreported (g.toDocument globals) :=
  (Unreported.mapM (fun _ => .lift _) _).bind fun _ => (Unreported.mapM (fun _ => .lift _) _).bind fun _ => .ok _

theorem unreported_ofDocument (matcher : Matcher) (first : Nat) (d : Document) :
    Unreported (Graph.ofDocument r matcher first d) := by
  have hrecord : ∀ (g : Graph) (x : NodeRecord), Unreported (g.addRecord r x) := fun g x =>
    (unreported_lookup r x.kind).bind fun k => (unreported_addNode g k [] x.id).bind fun _ => .ok _
  exact (Unreported.foldlM hrecord d.nodes _).bind fun g =>
    .foldlM (fun g x => (unreported_addEdge g r x).bind fun _ => .ok _) d.edges g

theorem unreported_danglingEnd? {x : Edge} {node port : String} {leaving : Bool} {i : Issue}
    (h : g.danglingEnd? r x node port leaving = some i) : i.failure.reported = false := by
  simp only [danglingEnd?, Option.bind_eq_bind, Option.bind_eq_some_iff] at h
  obtain ⟨n, -, k, -, h⟩ := h
  generalize (if leaving = true then k.outputPort port else k.inputPort port).isSome = found at h
  cases found with
  | true => cases h
  | false =>
    obtain rfl := Option.some.inj h
    rfl

/-- The failures that checks find are new. -/
theorem unreported_issues (startKind : String) : ∀ i ∈ g.issues r startKind, i.failure.reported = false := by
  intro i hi
  simp only [issues, List.mem_append] at hi
  rcases hi with (((hi | hi) | hi) | hi) | hi
  · obtain ⟨x, -, hi⟩ := List.mem_flatMap.mp hi
    rcases List.mem_append.mp hi with hi | hi
    · exact unreported_danglingEnd? g r (Option.mem_toList.mp hi)
    · exact unreported_danglingEnd? g r (Option.mem_toList.mp hi)
  · obtain ⟨n, -, hi⟩ := List.mem_filterMap.mp hi
    split at hi
    · cases hi
    · obtain rfl := Option.some.inj hi
      rfl
  · unfold missingEntry at hi
    split at hi
    · rw [List.mem_singleton.mp hi]
    · cases hi
  · unfold cyclicData at hi
    split at hi
    · rw [List.mem_singleton.mp hi]
    · cases hi
  · obtain ⟨n, -, hi⟩ := List.mem_flatMap.mp hi
    split at hi
    · cases hi
    · obtain ⟨p, -, hi⟩ := List.mem_filterMap.mp hi
      split at hi
      · cases hi
      · obtain rfl := Option.some.inj hi
        rfl

theorem unreported_validate (startKind : String) : Unreported (g.validate r startKind) := by
  unfold validate
  split
  · exact .ok _
  · next i _ h => exact .error (unreported_issues g r startKind i (by rw [h]; exact List.mem_cons_self))

end Graph

/-! ## Commands and questions -/

namespace Engine

variable (e : Engine)

theorem unreported_disarm (n : Node) : Unreported (e.disarm n).1 := by
  unfold disarm
  split
  · exact .error rfl
  · exact .ok _

theorem unreported_removeNode (id : String) : Unreported (e.removeNode id).1 := by
  unfold removeNode
  split
  · exact .error rfl
  · next n _ =>
    have hd := unreported_disarm e n
    split
    · next h =>
      rw [h] at hd
      exact .error (hd _ rfl)
    · next e₁ _ =>
      have hr := e₁.graph.unreported_removeNode id
      split
      · next h =>
        rw [h] at hr
        exact .error (hr _ rfl)
      · exact .ok _

theorem unreported_stop : Unreported e.stop.1 := by
  unfold stop
  dsimp only
  split
  · exact .error rfl
  · exact .ok _

theorem unreported_loadDocument (d : Document) : Unreported (e.loadDocument d).1 := by
  have hg := Graph.unreported_ofDocument e.registry .byType e.graph.nextSerial d
  have hs := unreported_stop e
  unfold loadDocument
  split
  · next h => rw [h] at hg; exact .error (hg _ rfl)
  · split
    · next h => rw [h] at hs; exact .error (hs _ rfl)
    · exact .ok _

theorem unreported_load (text : String) : Unreported (e.load text).1 := by
  have ht := Unreported.lift (Document.ofText text)
  unfold load
  split
  · next h => rw [h] at ht; exact .error (ht _ rfl)
  · exact unreported_loadDocument e _

theorem unreported_addNode (kind : String) (literals : Named) (id : Option String) :
    Unreported (e.addNode kind literals id).1 := by
  have hk := Graph.unreported_lookup e.registry kind
  unfold addNode
  split
  · next h => rw [h] at hk; exact .error (hk _ rfl)
  · next k _ =>
    have hn := (e.nodeId id).2.graph.unreported_addNode k literals (e.nodeId id).1
    dsimp only
    split
    · next h => rw [h] at hn; exact .error (hn _ rfl)
    · exact .ok _

theorem unreported_addEdge (x : Edge) : Unreported (e.addEdge x).1 := by
  have hx := e.graph.unreported_addEdge e.registry x
  unfold addEdge
  split
  · next h => rw [h] at hx; exact .error (hx _ rfl)
  · exact .ok _

theorem unreported_addChain (stem kind : String) (literals : Named) (input output : String) :
    ∀ (count number : Nat) (e : Engine),
      Unreported (e.addChain stem kind literals input output number count).1 := by
  intro count
  induction count with
  | zero => exact fun _ _ => .ok _
  | succ count ih =>
    intro number e
    have hn := unreported_addNode e kind literals (some (stem ++ toString number))
    unfold addChain
    dsimp only
    split
    · next h => rw [h] at hn; exact .error (hn _ rfl)
    · next e₁ h =>
      have hx : Unreported (if (number == 0) = true then (Except.ok none, e₁) else
          e₁.addEdge ⟨stem ++ toString (number - 1), output, stem ++ toString number, input⟩).1 := by
        split
        · exact .ok _
        · exact unreported_addEdge e₁ _
      split
      · next h' => rw [h'] at hx; exact .error (hx _ rfl)
      · exact ih _ _

theorem unreported_putGraph {x : Except Raised Graph} (h : Unreported x) : Unreported (e.putGraph x).1 := by
  unfold putGraph
  split
  · exact .error (h _ rfl)
  · exact .ok _

theorem unreported_register (d : Declaration Behavior) : Unreported (e.register d).1 := by
  unfold register
  split
  · exact .error rfl
  · exact .ok _

theorem unreported_expressionKind (d : Declaration Behavior) (source outputType : Value) :
    Unreported (expressionKind d source outputType) := by
  unfold expressionKind
  dsimp only
  split
  · exact (Unreported.lift _).bind fun _ => (Unreported.lift _).bind fun _ => .ok _
  · exact .error rfl

theorem unreported_readGraph (matcher : Matcher) (text : String) : Unreported (e.readGraph matcher text) :=
  (Unreported.lift _).bind fun _ => (Graph.unreported_ofDocument _ _ _ _).bind fun _ => .ok _

/-- The error of a command is new. -/
theorem unreported_command (c : Command) : Unreported (e.command c).1 := by
  cases c with
  | addNode kind literals id =>
    rw [command_addNode]
    exact (unreported_addNode e kind literals id).map
  | removeNode id =>
    rw [command_removeNode]
    exact (unreported_removeNode e id).map
  | addEdge x =>
    rw [command_addEdge]
    exact (unreported_addEdge e x).map
  | connect x =>
    rw [command_connect]
    exact (unreported_addEdge e x).map
  | setLiteral id port v => exact unreported_putGraph e (e.graph.unreported_setLiteral e.registry id port v)
  | chain stem kind n literals input output =>
    rw [command_chain]
    exact (unreported_addChain stem kind literals input output n 0 e).map
  | retag id kind => exact unreported_putGraph e (e.graph.unreported_retag id kind)
  | register d => exact unreported_register e d
  | registerExpression d source outputType =>
    have hd := unreported_expressionKind d source outputType
    simp only [command]
    split
    · next h => rw [h] at hd; exact .error (hd _ rfl)
    · exact unreported_register e _
  | kindOf id => exact (e.graph.unreported_kindOf e.registry id).bind fun _ => .ok _
  | isExecEdge x => exact (e.graph.unreported_isExecEdge e.registry x).bind fun _ => .ok _
  | document globals => exact (e.graph.unreported_toDocument globals).bind fun _ => .ok _
  | replaceGraph text =>
    have hg := unreported_readGraph e e.graph.matcher text
    simp only [command]
    split
    · next h => rw [h] at hg; exact .error (hg _ rfl)
    · exact .ok _
  | validate startKind => exact (e.graph.unreported_validate e.registry startKind).bind fun _ => .ok _
  | stop =>
    rw [command_stop]
    exact (unreported_stop e).map
  | dispatch event payload =>
    rw [command_dispatch]
    exact (Unreported.lift _).map
  | load text =>
    rw [command_load]
    exact (unreported_load e text).map
  | snapshot => exact (e.graph.unreported_toDocument e.store.values).bind fun _ => .ok _
  | _ => exact .ok _

/-- The error of a question is new. -/
theorem unreported_perform (i : Invocation) (sc : Scope) (q : Query) : Unreported (e.perform i sc q).reply := by
  cases q with
  | every seconds port => exact .lift _
  | fireLater seconds port => exact .lift _
  | listen event port => exact .lift _
  | cancelOwn => exact .lift _
  | _ => exact .ok _

end Engine

end Patchbay
