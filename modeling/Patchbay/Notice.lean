import Patchbay.Error
import Patchbay.Text.Casing

/-!
# Notices

What observers of an engine are told, step by step, and what a trigger and a run end with.

Contents:
* `Status`, `Origin`, `Mode`.
* `Notice`: one notable step of execution; `Notice.trigger?`.
* `LogLevel`: the level at which a program log line is recorded.
* `TriggerResult`, `RunResult`: results, whether they are successes, and the errors of a run.
-/

namespace Patchbay

/-- How a trigger or a run ended. -/
inductive Status where
  | ok
  | error
  | cancelled
deriving DecidableEq

/-- The name of a status. -/
def Status.name : Status → String
  | .ok => "ok"
  | .error => "error"
  | .cancelled => "cancelled"

/-- What started a trigger. -/
inductive Origin where
  /-- a run or a step, from a start node -/
  | start
  /-- a run or a step, to set up an event node -/
  | arm
  /-- a timer, a listener or a request to fire -/
  | event
  /-- a request to run one node -/
  | direct
deriving DecidableEq

/-- The name of an origin. -/
def Origin.name : Origin → String
  | .start => "start"
  | .arm => "arm"
  | .event => "event"
  | .direct => "direct"

/-- Why a behaviour is invoked: control flow reached its node, or one of its outputs is pulled. -/
inductive Mode where
  | exec
  | pull
deriving DecidableEq

/-- The name of a mode. -/
def Mode.name : Mode → String
  | .exec => "exec"
  | .pull => "pull"

/-- One notable step of execution. Triggers are named by their numbers. -/
inductive Notice where
  | runStarted (entries : List String)
  | runStopped (cancelled : Nat)
  | triggerStarted (trigger : Nat) (node : String) (origin : Origin)
  | triggerFinished (trigger : Nat) (node : String) (status : Status) (executed : Nat) (origin : Origin)
  | nodeStarted (trigger : Nat) (node kind : String) (mode : Mode)
  | nodeFinished (trigger : Nat) (node kind : String) (outputs : List Value)
  | nodeErrored (trigger : Nat) (node : String) (error : String) (message : String)
  | log (trigger : Nat) (node : String) (level : String) (message : Value)
  /-- a teardown that asked to be noted was called -/
  | tornDown (node : String)

/-- The trigger a notice belongs to. -/
def Notice.trigger? : Notice → Option Nat
  | triggerStarted t _ _ => some t
  | triggerFinished t _ _ _ _ => some t
  | nodeStarted t _ _ _ => some t
  | nodeFinished t _ _ _ => some t
  | nodeErrored t _ _ _ => some t
  | log t _ _ _ => some t
  | runStarted _ => none
  | runStopped _ => none
  | tornDown _ => none

/-! ## Log levels -/

/-- The levels of the program log. -/
inductive LogLevel where
  | debug
  | info
  | warning
  | error
deriving DecidableEq

/-- The name of a level in records. -/
def LogLevel.name : LogLevel → String
  | .debug => "DEBUG"
  | .info => "INFO"
  | .warning => "WARNING"
  | .error => "ERROR"

/-- The level that a word stands for; other words are informative. -/
def LogLevel.ofWord (s : String) : LogLevel :=
  match s with
  | "debug" => .debug
  | "warn" => .warning
  | "warning" => .warning
  | "error" => .error
  | _ => .info

/-- The word for a level as it is given: a text in lower case, or `info` for anything else. -/
def levelWord : Value → String
  | .str s => Text.lower s
  | _ => "info"

/-! ## Results -/

/-- What a root trigger ended with. -/
structure TriggerResult where
  trigger : Nat
  origin : String
  status : Status
  executed : Nat := 0
  error : Option Failure := none

/-- Whether a trigger ended neither with an error nor by a stop. -/
def TriggerResult.success (r : TriggerResult) : Bool := r.status == .ok

/-- What a run ended with: one result for each trigger it started. -/
structure RunResult where
  status : Status
  triggers : List TriggerResult

namespace RunResult

/-- Whether a run ended neither with an error nor by a stop. -/
def success (r : RunResult) : Bool := r.status == .ok

/-- The errors of the triggers of a run. -/
def errors (r : RunResult) : List Failure := r.triggers.filterMap TriggerResult.error

/-- The status of a run: an error in a trigger, then a stop, decides it. -/
def statusOf (running : Bool) (results : List TriggerResult) : Status :=
  if results.any fun t => t.status == .error then .error
  else if !running || results.any fun t => t.status == .cancelled then .cancelled
  else .ok

end RunResult

end Patchbay
