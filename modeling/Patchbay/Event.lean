import Patchbay.Value.Basic

/-!
# Events

Notable steps of execution as plain data, for log panes and remote debuggers: a kind, the trigger and
the node concerned, and details under names. An event of a specific kind has all the details of that
kind, with defaults for those that are not given.

Contents:
* `EventKind`, its names and the details of each kind.
* `Event`, `Event.specific`, `Event.plain`.
* `ObserverCallback`, `Event.observed?`: what an observer with callbacks is told.
-/

namespace Patchbay

/-- The kinds of events. -/
inductive EventKind where
  | runStarted
  | triggerStarted
  | nodeStarted
  | nodeFinished
  | nodeErrored
  | log
  | triggerFinished
  | runStopped
deriving DecidableEq

namespace EventKind

/-- The name of a kind. -/
def name : EventKind → String
  | runStarted => "run_started"
  | triggerStarted => "trigger_started"
  | nodeStarted => "node_started"
  | nodeFinished => "node_finished"
  | nodeErrored => "node_errored"
  | log => "log"
  | triggerFinished => "trigger_finished"
  | runStopped => "run_stopped"

/-- All kinds. -/
def all : List EventKind :=
  [runStarted, triggerStarted, nodeStarted, nodeFinished, nodeErrored, log, triggerFinished, runStopped]

/-- The kind with a name. -/
def ofName? (s : String) : Option EventKind := all.find? fun k => k.name == s

/-- The details that an event of a kind has at least. -/
def defaults : EventKind → Named
  | runStarted => [("entry_points", .list [])]
  | triggerStarted => [("origin", .str "")]
  | nodeStarted => [("kind_id", .str ""), ("mode", .str "exec")]
  | nodeFinished => [("kind_id", .str ""), ("duration_ms", .int 0), ("outputs_present", .list [])]
  | nodeErrored => [("error_class", .str ""), ("error_message", .str "")]
  | log => [("level", .str "info"), ("message", .str "")]
  | triggerFinished => [("status", .str "ok"), ("duration_ms", .int 0), ("nodes_executed", .int 0)]
  | runStopped => [("registrations_cancelled", .int 0)]

end EventKind

/-- One notable step of execution. -/
structure Event where
  kind : EventKind
  trigger : Option String := none
  node : Option String := none
  details : Named := []
  /-- whether it has all the details of its kind -/
  complete : Bool := false

namespace Event

/-- Details with defaults behind them. -/
def withDefaults (details defaults : Named) : Named :=
  defaults.foldl (fun d (k, v) => if d.has k then d else d.set k v) details

/-- An event with all the details of its kind. -/
def specific (kind : EventKind) (trigger node : Option String) (details : Named) : Event :=
  ⟨kind, trigger, node, withDefaults details kind.defaults, true⟩

/-- An event with the given details only. -/
def plain (kind : EventKind) (trigger node : Option String) (details : Named) : Event :=
  ⟨kind, trigger, node, details, false⟩

/-- The level of a complete log event. -/
def level? (e : Event) : Option Value :=
  if e.complete && e.kind == .log then e.details.get? "level" else none

/-- The message of a complete log or error event. -/
def message? (e : Event) : Option Value :=
  if !e.complete then none
  else match e.kind with
    | .log => e.details.get? "message"
    | .nodeErrored => e.details.get? "error_message"
    | _ => none

end Event

/-! ## Observers -/

/-- The callbacks that an observer may have. -/
inductive ObserverCallback where
  | onNodeStarted
  | onNodeFinished
  | onNodeErrored
  | onLog
deriving DecidableEq

/-- The name of a callback. -/
def ObserverCallback.name : ObserverCallback → String
  | .onNodeStarted => "on_node_started"
  | .onNodeFinished => "on_node_finished"
  | .onNodeErrored => "on_node_errored"
  | .onLog => "on_log"

/-- The callback with a name. -/
def ObserverCallback.ofName? (s : String) : Option ObserverCallback :=
  [.onNodeStarted, .onNodeFinished, .onNodeErrored, .onLog].find? fun c => c.name == s

/-- The callback that an event is for, and what it is given. -/
def Event.observed? (e : Event) : Option (ObserverCallback × List Value) :=
  let node : Value := (e.node.map Value.str).getD .null
  match e.kind with
  | .nodeStarted => some (.onNodeStarted, [node])
  | .nodeFinished => some (.onNodeFinished, [node])
  | .nodeErrored => some (.onNodeErrored, [node, (e.details.get? "error_message").getD (.str "")])
  | .log => some (.onLog,
      [(e.details.get? "level").getD (.str "info"), (e.details.get? "message").getD .null])
  | _ => none

end Patchbay
