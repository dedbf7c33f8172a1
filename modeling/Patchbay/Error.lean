import Patchbay.Edge
import Patchbay.Fault
import Patchbay.Port
import Patchbay.Text.Quoted

/-!
# Errors

Everything that can go wrong with a configuration, a graph or a run. An error is a cause, with the
data its message shows, and the node and trigger it belongs to. Causes fall into families: structural
errors are about changes to a graph, execution errors about running it.

Contents:
* `Family`: the families, their names and their order.
* `Cause`: what went wrong; `Cause.family` and `Cause.message`.
* `Failure`: a cause in its place, and whether it has been reported.
* `Raised`: a failure or a fault, whichever stops a computation; a fault may have no text.
-/

namespace Patchbay

/-! ## Families -/

/-- The families of errors. -/
inductive Family where
  | base
  | config
  | graph
  | unknownKind
  | nodeNotFound
  | portNotFound
  | typeMismatch
  | execution
  | noEntryPoint
  | cyclicDependency
  | pullDepth
  | missingLiteral
  | behavior
  | sandbox
deriving DecidableEq

namespace Family

/-- The name under which a family is reported. -/
def name : Family → String
  | base => "BlockFlowError"
  | config => "ConfigError"
  | graph => "GraphError"
  | unknownKind => "UnknownKindError"
  | nodeNotFound => "NodeNotFoundError"
  | portNotFound => "PortNotFoundError"
  | typeMismatch => "TypeMismatchError"
  | execution => "ExecutionError"
  | noEntryPoint => "NoEntryPointError"
  | cyclicDependency => "CyclicDependencyError"
  | pullDepth => "PullDepthError"
  | missingLiteral => "MissingLiteralError"
  | behavior => "BehaviorError"
  | sandbox => "SandboxError"

/-- All families. -/
def all : List Family :=
  [base, config, graph, unknownKind, nodeNotFound, portNotFound, typeMismatch, execution,
    noEntryPoint, cyclicDependency, pullDepth, missingLiteral, behavior, sandbox]

/-- The family with a name. -/
def ofName? (s : String) : Option Family := all.find? fun f => f.name == s

/-- The families a family belongs to, itself first. -/
def lineage : Family → List Family
  | base => [base]
  | config => [config, base]
  | graph => [graph, base]
  | unknownKind => [unknownKind, graph, base]
  | nodeNotFound => [nodeNotFound, graph, base]
  | portNotFound => [portNotFound, graph, base]
  | typeMismatch => [typeMismatch, graph, base]
  | execution => [execution, base]
  | noEntryPoint => [noEntryPoint, execution, base]
  | cyclicDependency => [cyclicDependency, execution, base]
  | pullDepth => [pullDepth, execution, base]
  | missingLiteral => [missingLiteral, execution, base]
  | behavior => [behavior, execution, base]
  | sandbox => [sandbox, execution, base]

end Family

/-! ## Causes -/

/-- What went wrong. -/
inductive Cause where
  -- configuration
  | emptyStartKind
  | depthNotPositive (got : String)
  | intervalNegative (got : String)
  | unknownPolicy (got : String)
  | unknownSettings (names : List String)
  | invalidSetting (name : String) (got : String)
  | unreadableSettings (path : String) (fault : Fault)
  | settingsNoObject (path : String)
  -- changes to a graph
  | unknownKind (kind : String)
  | nodeNotFound (node : String)
  | nodeExists (node : String)
  | kindHasNoDataInput (kind port : String)
  | nodeHasNoDataInput (node kind port : String)
  | nodeHasNoOutput (node kind port : String)
  | nodeHasNoInput (node kind port : String)
  | incompatible (edge : Edge) (source dest : ValueType)
  -- checks of a whole graph
  | noEntryPoint (kind : String)
  | danglingEdge (edge : Edge) (port node kind : String)
  | unboundInput (port node : String)
  -- runs
  | nothingToStart (kind : String)
  | kindHasNoExecOutput (kind port : String)
  | cyclic (path : List (String × String))
  | tooDeep (bound : String) (node port : String)
  | missingLiteral (port node : String)
  | notProducedYet (port node : String)
  | notProduced (node port : String)
  | notAnExecOutput (node result kind : String)
  | behaviorFailed (node kind : String) (fault : Fault)
  -- expressions
  | notText (typeName : String)
  | tooLong (limit : Nat)
  | invalidExpression (source : String)
  | constantRefused (shown : String)
  | nameRefused (name : String)
  | operatorRefused (label : String)
  | comparisonRefused (label : String)
  | spreadRefused
  | callRefused (callee : String)
  | keywordsRefused
  | starRefused
  | constructRefused (label : String)
  | nameUndefined (name : String)
  | exponentTooLarge (shown : String)
  | resultTooLarge
  | evaluationFailed (source : String) (fault : Fault)
  -- errors stated by a behaviour
  | stated (family : Family) (message : String)

namespace Cause

/-- A path of a data dependency in a message. -/
def chainText (path : List (String × String)) : String :=
  String.intercalate " -> " (path.map fun (node, port) => node ++ "." ++ port)

/-- The family a cause belongs to. -/
def family : Cause → Family
  | emptyStartKind | depthNotPositive _ | intervalNegative _ | unknownPolicy _ | unknownSettings _
  | invalidSetting _ _ | unreadableSettings _ _ | settingsNoObject _ => .config
  | unknownKind _ => .unknownKind
  | nodeNotFound _ => .nodeNotFound
  | nodeExists _ => .graph
  | kindHasNoDataInput _ _ | nodeHasNoDataInput _ _ _ | nodeHasNoOutput _ _ _
  | nodeHasNoInput _ _ _ | danglingEdge _ _ _ _ | kindHasNoExecOutput _ _ => .portNotFound
  | incompatible _ _ _ => .typeMismatch
  | noEntryPoint _ | nothingToStart _ => .noEntryPoint
  | cyclic _ => .cyclicDependency
  | tooDeep _ _ _ => .pullDepth
  | unboundInput _ _ | missingLiteral _ _ | notProducedYet _ _ | notProduced _ _ => .missingLiteral
  | notAnExecOutput _ _ _ | behaviorFailed _ _ _ => .behavior
  | notText _ | tooLong _ | invalidExpression _ | constantRefused _ | nameRefused _
  | operatorRefused _ | comparisonRefused _ | spreadRefused | callRefused _ | keywordsRefused
  | starRefused | constructRefused _ | nameUndefined _ | exponentTooLarge _ | resultTooLarge
  | evaluationFailed _ _ => .sandbox
  | stated f _ => f

/-- The message of a cause. -/
def message : Cause → String
  | emptyStartKind => "start_kind must not be empty"
  | depthNotPositive got => s!"max_pull_depth must be positive, got {got}"
  | intervalNegative got => s!"min_interval_ms must not be negative, got {got}"
  | unknownPolicy got => s!"missing_literal_policy must be one of ('error', 'none'), got {got}"
  | unknownSettings names =>
    "Unknown config keys: [" ++ String.intercalate ", " (names.map Text.quote) ++ "]"
  | invalidSetting name got => s!"Invalid value for {name}: {got}"
  | unreadableSettings path fault => s!"Cannot load config from {path}: {fault.text}"
  | settingsNoObject path => s!"Config file {path} must contain a JSON object"
  | unknownKind kind => s!"Unknown node kind: '{kind}'"
  | nodeNotFound node => s!"Node '{node}' not found"
  | nodeExists node => s!"Node with id '{node}' already exists"
  | kindHasNoDataInput kind port => s!"Node kind '{kind}' has no data input '{port}'"
  | nodeHasNoDataInput node kind port => s!"Node '{node}' ({kind}) has no data input '{port}'"
  | nodeHasNoOutput node kind port => s!"Node '{node}' ({kind}) has no output '{port}'"
  | nodeHasNoInput node kind port => s!"Node '{node}' ({kind}) has no input '{port}'"
  | incompatible e s d =>
    s!"Incompatible port types: {e.source}.{e.sourcePort} ({s.name}) -> {e.dest}.{e.destPort} ({d.name})"
  | noEntryPoint kind => s!"Graph has no '{kind}' node"
  | danglingEdge e port node kind =>
    s!"Edge {e.text} references missing port '{port}' on node '{node}' ({kind})"
  | unboundInput port node => s!"Input '{port}' on node '{node}' has no edge and no literal"
  | nothingToStart kind => s!"Graph has no '{kind}' node to start from"
  | kindHasNoExecOutput kind port => s!"Node kind '{kind}' has no exec output '{port}'"
  | cyclic path => s!"Cyclic data dependency: {chainText path}"
  | tooDeep bound node port => s!"Data resolution deeper than {bound} nodes at '{node}.{port}'"
  | missingLiteral port node => s!"Input '{port}' of node '{node}' has no edge, literal or default"
  | notProducedYet port node =>
    s!"Output '{port}' of node '{node}' has not been produced in this trigger"
  | notProduced node port => s!"Node '{node}' did not produce output '{port}'"
  | notAnExecOutput node result kind =>
    s!"Node '{node}' returned '{result}', which is not an exec output of '{kind}'"
  | behaviorFailed node kind fault => s!"Node '{node}' ({kind}) failed: {fault.text}"
  | notText typeName => s!"Expression must be text, got {typeName}"
  | tooLong limit => s!"Expression longer than {limit} characters"
  | invalidExpression source => s!"Invalid expression {Text.quote source}: <SyntaxError>"
  | constantRefused shown => s!"Constant {shown} not allowed"
  | nameRefused name => s!"Name '{name}' not allowed"
  | operatorRefused label => s!"Operator {label} not allowed"
  | comparisonRefused label => s!"Comparison {label} not allowed"
  | spreadRefused => "Dict unpacking not allowed"
  | callRefused callee => s!"Call to {Text.quote callee} not allowed"
  | keywordsRefused => "Keyword arguments not allowed"
  | starRefused => "Argument unpacking not allowed"
  | constructRefused label => s!"{label} not allowed in expressions"
  | nameUndefined name => s!"Name '{name}' is not defined"
  | exponentTooLarge shown => s!"Exponent {shown} too large"
  | resultTooLarge => "Result too large"
  | evaluationFailed source fault => s!"Error evaluating {Text.quote source}: {fault.text}"
  | stated _ message => message

/-- The path of a cyclic dependency. -/
def path? : Cause → Option (List (String × String))
  | cyclic path => some path
  | _ => none

/-- The fault that made a behaviour fail. -/
def fault? : Cause → Option Fault
  | behaviorFailed _ _ fault => some fault
  | _ => none

end Cause

/-! ## Failures -/

/-- What a trigger is known by: its number in an engine, or a given name. -/
inductive TriggerId where
  | serial (n : Nat)
  | named (s : String)
deriving DecidableEq

/-- A cause in its place. -/
structure Failure where
  cause : Cause
  node : Option String := none
  trigger : Option TriggerId := none
  metadata : Named := []
  /-- whether observers have been told -/
  reported : Bool := false

namespace Failure

/-- The message of a failure. -/
def message (f : Failure) : String := f.cause.message

/-- The family of a failure. -/
def family (f : Failure) : Family := f.cause.family

/-- The failure as a constructor would write it: its message, then the node and trigger it names. -/
def text (f : Failure) : String :=
  let shown (label s : String) : List String :=
    if s.isEmpty then [] else [label ++ "=" ++ Text.quote s]
  let trigger := match f.trigger with
    | some (.named s) => shown "trigger_id" s
    | _ => []
  f.family.name ++ "(" ++ String.intercalate ", "
    (("message=" ++ Text.quote f.message) :: shown "node_id" (f.node.getD "") ++ trigger) ++ ")"

/-- The failure at a node, unless it names one already. -/
def atNode (f : Failure) (node : String) : Failure :=
  if (f.node.getD "").isEmpty then { f with node := some node } else f

/-- The failure in a trigger, unless it names one already. -/
def inTrigger (f : Failure) (t : TriggerId) : Failure :=
  match f.trigger with
  | none => { f with trigger := some t }
  | some (.named "") => { f with trigger := some t }
  | some _ => f

end Failure

/-- What stops a computation: a failure of the project's own, or a fault of a primitive. -/
inductive Raised where
  | failure (f : Failure)
  | fault (f : Fault)
  /-- a fault without a text, such as a missing key with too many digits: a message that is to show it fails in its
  turn -/
  | mute (f : Fault)

namespace Raised

/-- A failure with no place yet. -/
def cause (c : Cause) : Raised := .failure { cause := c }

/-- A failure at a node. -/
def causeAt (c : Cause) (node : String) : Raised := .failure { cause := c, node := some node }

/-- The name under which it is reported. -/
def name : Raised → String
  | failure f => f.family.name
  | fault f => f.kind.name
  | mute f => f.kind.name

end Raised

/-- The result of a primitive operation where failures may be raised. -/
def Fault.lift {α : Type} (r : Except Fault α) : Except Raised α :=
  match r with
  | .ok a => .ok a
  | .error f => .error (.fault f)

end Patchbay
