import Patchbay.Error
import Patchbay.Expr.Function
import Patchbay.Json.Reader
import Patchbay.Text.Casing
import Patchbay.Value.Show

/-!
# Configuration

The settings of an engine. They come as named values, as a mapping whose values are converted to the
type of the setting, from environment variables, or from the text of a JSON file. A configuration is
checked once, when it is made.

Contents:
* `Setting`: the settings, their names and defaults.
* `Config`, `Config.checked`.
* `Config.ofNamed`, `Config.ofMapping`, `Config.ofEnvironment`, `Config.ofFile`.
-/

namespace Patchbay

/-- The settings of an engine. -/
inductive Setting where
  | startKind
  | maxPullDepth
  | minIntervalMs
  | missingLiteralPolicy
deriving DecidableEq

namespace Setting

/-- All settings, in the order in which they are listed. -/
def all : List Setting := [startKind, maxPullDepth, minIntervalMs, missingLiteralPolicy]

/-- The name of a setting. -/
def name : Setting → String
  | startKind => "start_kind"
  | maxPullDepth => "max_pull_depth"
  | minIntervalMs => "min_interval_ms"
  | missingLiteralPolicy => "missing_literal_policy"

/-- The setting with a name. -/
def ofName? (s : String) : Option Setting := all.find? fun x => x.name == s

/-- The environment variable that holds a setting. -/
def environmentName (x : Setting) : String := "BLOCKFLOW_" ++ Text.upper x.name

/-- A raw value in the type of a setting: text, a whole number or a double. -/
def convert (x : Setting) (raw : Value) : Except Fault Value :=
  match x with
  | startKind => return .str (← raw.toText)
  | maxPullDepth => Expr.toInteger raw
  | minIntervalMs => return .float (← Expr.toFloat raw)
  | missingLiteralPolicy => return .str (← raw.toText)

end Setting

/-- The settings of an engine. Values given directly are kept as they are, so a bound may also be a
double or a truth value. -/
structure Config where
  /-- kind whose nodes a run starts from -/
  startKind : Value := .str "event.start"
  /-- bound on nested resolutions -/
  maxPullDepth : Value := .int 10000
  /-- smallest period of an interval, in milliseconds -/
  minIntervalMs : Value := .float 10.0
  /-- what an input without a value yields: an error, or nothing -/
  missingLiteralPolicy : Value := .str "error"

namespace Config

/-- The value of a setting. -/
def get (c : Config) : Setting → Value
  | .startKind => c.startKind
  | .maxPullDepth => c.maxPullDepth
  | .minIntervalMs => c.minIntervalMs
  | .missingLiteralPolicy => c.missingLiteralPolicy

/-- Changes a setting. -/
def set (c : Config) (x : Setting) (v : Value) : Config :=
  match x with
  | .startKind => { c with startKind := v }
  | .maxPullDepth => { c with maxPullDepth := v }
  | .minIntervalMs => { c with minIntervalMs := v }
  | .missingLiteralPolicy => { c with missingLiteralPolicy := v }

/-- The settings as named values. -/
def toNamed (c : Config) : Named := Setting.all.map fun x => (x.name, c.get x)

/-- The policies for an input without a value. -/
def policies : List String := ["error", "none"]

/-- Whether a value is below a bound; values without an order are a fault. -/
def isBelow (v bound : Value) : Except Raised Bool :=
  match Value.related? .lt v bound with
  | some b => .ok b
  | none => .error (.fault .type)

/-- A configuration whose settings are all acceptable. -/
def checked (c : Config) : Except Raised Config := do
  if !c.startKind.truthy then throw (.cause .emptyStartKind)
  if ← isBelow c.maxPullDepth (.int 1) then
    throw (.cause (.depthNotPositive (← Fault.lift (Value.worded c.maxPullDepth.toText))))
  if ← isBelow c.minIntervalMs (.int 0) then
    throw (.cause (.intervalNegative (← Fault.lift (Value.worded c.minIntervalMs.toText))))
  if policies.any fun p => c.missingLiteralPolicy.same (.str p) then return c
  else throw (.cause (.unknownPolicy (← Fault.lift c.missingLiteralPolicy.repr)))

/-- Settings under their names, put over a configuration as they are. An unknown name is a fault. -/
def override (c : Config) (values : Named) : Except Raised Config := do
  let c ← values.foldlM (fun (c : Config) (name, v) => match Setting.ofName? name with
    | some x => .ok (c.set x v)
    | none => .error (.fault .type)) c
  c.checked

/-- The configuration with the given settings. -/
def ofNamed (values : Named) : Except Raised Config := override {} values

/-- The settings of a mapping, each converted to its type. A value of the wrong type or outside the
domain of the conversion is an error of the configuration; other faults of the conversion stay
faults. -/
def convertAll : Named → Except Raised Named
  | [] => .ok []
  | (name, raw) :: rest => match Setting.ofName? name with
    | none => .error (.cause (.unknownSettings [name]))
    | some x => do
      let v ← match x.convert raw with
        | .ok v => pure v
        | .error f => match f.kind with
          | .type | .value => throw (.cause (.invalidSetting name (← Fault.lift (Value.worded raw.repr))))
          | _ => throw (.fault f)
      return (name, v) :: (← convertAll rest)

/-- The configuration that a mapping describes. All unknown names are reported together, sorted. -/
def ofMapping (values : Named) : Except Raised Config := do
  let unknown := values.names.filter fun n => (Setting.ofName? n).isNone
  if unknown.isEmpty then ofNamed (← convertAll values)
  else throw (.cause (.unknownSettings (unknown.mergeSort (fun a b => decide (a ≤ b)))))

/-- The configuration that environment variables describe. -/
def ofEnvironment (environment : Named) : Except Raised Config :=
  ofMapping (Setting.all.filterMap fun x =>
    (environment.get? x.environmentName).map fun v => (x.name, v))

/-- The members of a JSON object under their names. -/
def membersOf (es : Dict) : Named :=
  es.filterMap fun (k, v) => match k with
    | .str s => some (s, v)
    | _ => none

/-- The configuration that the text of a file describes; without a text the file is missing. -/
def ofFile (path : String) (text : Option String) : Except Raised Config :=
  match text with
  | none => .error (.cause (.unreadableSettings path { kind := .missingFile }))
  | some s => match Json.read .literal s with
    | .error .malformed => .error (.cause (.unreadableSettings path .json))
    | .error .tooManyDigits => .error (.fault .value)
    | .ok (.dict es) => ofMapping (membersOf es)
    | .ok _ => .error (.cause (.settingsNoObject path))

end Config

end Patchbay
