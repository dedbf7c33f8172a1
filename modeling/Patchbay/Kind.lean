import Patchbay.Port
import Patchbay.Value.Show

/-!
# Kinds

A kind of node: its ports and the behaviour that runs when a node of the kind executes. Kinds are
declared with ports in several forms; a declaration is made into a kind once, with distinct port ids
in each direction, the control flow ports that its shape asks for, and no others.

Contents:
* `Teardown`: what happens to a node of a kind when execution stops.
* `Kind`: ports and behaviour; views of its ports.
* `PortEntry`, `PortDeclarations`, `portList`: declarations of ports and the ports they stand for.
* `Declaration`, `Declaration.build`.
* `Kind.declaration`, `Declaration.documented`, `Declaration.decorated`: behaviours decorated with a declaration, and
  kinds that are declared again.
-/

namespace Patchbay

/-- What happens to a node when execution stops or the node goes. -/
inductive Teardown where
  /-- an entry of the node's state is dropped -/
  | forget (key : String)
  /-- it is noted in the trace, and then fails or not -/
  | note (fails : Bool)
deriving DecidableEq

/-- A kind of node whose behaviours are of type `β`. -/
structure Kind (β : Type) where
  id : String
  displayName : String
  category : Option String
  inputs : List Port
  outputs : List Port
  behavior : Option β
  shape : Shape
  autoContinue : Bool
  teardown : Option Teardown
  description : Option String

namespace Kind

variable {β : Type}

/-- Whether nodes of the kind only carry data. -/
def dataOnly (k : Kind β) : Bool := k.shape == .expression

/-- The input with an id. -/
def inputPort (k : Kind β) (port : String) : Option Port := k.inputs.find? fun p => p.id == port

/-- The output with an id. -/
def outputPort (k : Kind β) (port : String) : Option Port := k.outputs.find? fun p => p.id == port

/-- The data input with an id. -/
def dataInput (k : Kind β) (port : String) : Option Port :=
  (k.inputPort port).filter fun p => !p.isExec

/-- The control flow output with an id. -/
def execOutput (k : Kind β) (port : String) : Option Port :=
  (k.outputPort port).filter Port.isExec

/-- The port with an id and a direction. -/
def port (k : Kind β) (port : String) : Direction → Option Port
  | .input => k.inputPort port
  | .output => k.outputPort port

/-- The control flow inputs. -/
def execInputs (k : Kind β) : List Port := k.inputs.filter Port.isExec

/-- The control flow outputs. -/
def execOutputs (k : Kind β) : List Port := k.outputs.filter Port.isExec

/-- The data inputs. -/
def dataInputs (k : Kind β) : List Port := k.inputs.filter fun p => !p.isExec

/-- The data outputs. -/
def dataOutputs (k : Kind β) : List Port := k.outputs.filter fun p => !p.isExec

/-- The output that control flow takes when a behaviour does not choose one. -/
def defaultExecOutput (k : Kind β) : Option String := (k.execOutput execPort).map Port.id

/-- The literals that data inputs declare. -/
def defaultLiterals (k : Kind β) : Named :=
  k.dataInputs.filterMap fun p => p.default.map fun v => (p.id, v)

/-- The description, or the display name of a kind without one. -/
def shownDescription (k : Kind β) : String :=
  match k.description with
  | some d => if d.isEmpty then k.displayName else d
  | none => k.displayName

end Kind

/-! ## Declarations of ports -/

/-- One port declared under a key. -/
inductive PortEntry where
  | port (p : Port)
  | options (o : Named)
  | other (v : Value)

/-- Declared ports: in order, or under keys. -/
inductive PortDeclarations where
  | listed (ports : List Port)
  | keyed (entries : List (String × PortEntry))

/-- The options that a declaration by options may have. -/
def portOptions : List String := ["value_type", "default_literal", "description"]

/-- A port declared by options. -/
def portOfOptions (key : String) (d : Direction) (o : Named) : Except Fault Port :=
  if o.all fun e => portOptions.contains e.1 then
    Port.declare key (.str d.name) ((o.get? "value_type").getD (.str "any")) (o.get? "default_literal")
      ((o.get? "description").getD .null)
  else .error .type

/-- The port declared under a key. -/
def portOfEntry (d : Direction) (key : String) : PortEntry → Except Fault Port
  | .port p =>
    if p.id == key then .ok p
    else .error (.valueSaying s!"Port key '{key}' does not match port id '{p.id}'")
  | .options o => portOfOptions key d o
  | .other v => do
    let shown ← Value.worded v.repr
    throw (.valueSaying s!"Invalid port definition: {shown}")

/-- The ports that declarations stand for, all in one direction. -/
def portList (d : Direction) : PortDeclarations → Except Fault (List Port)
  | .listed ports => .ok (ports.map fun p => { p with direction := d })
  | .keyed entries => entries.mapM fun (key, e) => do
    let p ← portOfEntry d key e
    return { p with direction := d }

/-- The first id that a list of ports has twice, at its second place. -/
def repeatedPort? (seen : List String) : List Port → Option String
  | [] => none
  | p :: ps => if seen.contains p.id then some p.id else repeatedPort? (p.id :: seen) ps

/-! ## Declarations of kinds -/

/-- A kind as it is declared. -/
structure Declaration (β : Type) where
  kind : String
  displayName : Option String := none
  category : Option String := some "General"
  inputs : PortDeclarations := .listed []
  outputs : PortDeclarations := .listed []
  behavior : Option β := none
  /-- the name of the shape -/
  shape : String := "statement"
  autoContinue : Bool := true
  teardown : Option Teardown := none
  description : Option String := none

/-- The text, if there is one and it is not empty. -/
def nonEmpty? (s : Option String) : Option String := s.filter fun t => !t.isEmpty

namespace Declaration

variable {β : Type}

/-- Refuses ports that do not fit together or do not fit the shape. -/
def checkPorts (kind : String) (shape : Shape) (inputs outputs : List Port) : Except Fault Unit := do
  if let some id := repeatedPort? [] inputs then
    throw (.valueSaying s!"Duplicate port '{id}' on node kind '{kind}'")
  if let some id := repeatedPort? [] outputs then
    throw (.valueSaying s!"Duplicate port '{id}' on node kind '{kind}'")
  if shape == .expression && (inputs ++ outputs).any Port.isExec then
    throw (.valueSaying s!"Data-only node kind '{kind}' cannot declare exec ports")
  if shape == .event && inputs.any Port.isExec then
    throw (.valueSaying s!"Event node kind '{kind}' cannot declare exec inputs")

/-- The inputs with the control flow input that a statement needs. -/
def withExecInput (shape : Shape) (inputs : List Port) : List Port :=
  if shape == .statement && !inputs.any Port.isExec then .execIn :: inputs else inputs

/-- The outputs with the control flow output that statements and events need. -/
def withExecOutput (shape : Shape) (outputs : List Port) : List Port :=
  if shape != .expression && !outputs.any Port.isExec then .execOut :: outputs else outputs

/-- The kind that a declaration stands for. -/
def build (d : Declaration β) : Except Fault (Kind β) :=
  match Shape.ofName? d.shape with
  | none => .error .value
  | some shape => do
    let inputs ← portList .input d.inputs
    let outputs ← portList .output d.outputs
    checkPorts d.kind shape inputs outputs
    return {
      id := d.kind
      displayName := (nonEmpty? d.displayName).getD d.kind
      category := d.category
      inputs := withExecInput shape inputs
      outputs := withExecOutput shape outputs
      behavior := d.behavior
      shape := shape
      autoContinue := d.autoContinue
      teardown := d.teardown
      description := d.description }

end Declaration

/-- A kind declared again, by its own ports and shape. -/
def Kind.declaration {β : Type} (k : Kind β) : Declaration β where
  kind := k.id
  displayName := some k.displayName
  category := k.category
  inputs := .listed k.inputs
  outputs := .listed k.outputs
  behavior := k.behavior
  shape := k.shape.name
  autoContinue := k.autoContinue
  teardown := k.teardown
  description := k.description

/-- A declaration that decorates a behaviour with a text of its own, which describes the kind where the
declaration does not. -/
def Declaration.documented {β : Type} (d : Declaration β) (doc : Option String) : Declaration β :=
  { d with description := (nonEmpty? d.description).or (nonEmpty? (doc.map Text.strip)) }

/-- What a behaviour carries that was decorated with a declaration: the kind that it stood for then,
declared again. Without a behaviour there is nothing to carry it. -/
def Declaration.decorated {β : Type} (d : Declaration β) : Except Fault (Declaration β) := do
  let k ← d.build
  if k.behavior.isNone then throw .missingAttribute
  return k.declaration

end Patchbay
