/-!
# Faults

A fault is the failure of a primitive operation: a value of the wrong type, a division by zero, a
text that is no number. The project's own errors, which are about graphs and runs, are in
`Patchbay.Error`; some of them report a fault as their cause.

Contents:
* `FaultKind`, its `name`, and whether it is of an operation on values.
* `Fault`: a kind, with a text when the failing operation is one of the project's own.
* `Fault.text`: what a message shows of a fault.
-/

namespace Patchbay

/-- One rejected place of a document: the path to it and the rule it broke. -/
structure Rejection where
  path : List (String ⊕ Nat)
  rule : String

/-- The kinds of failure of a primitive operation. -/
inductive FaultKind where
  | type
  | value
  | zeroDivision
  | overflow
  | index
  | key
  | json
  | grammar
  | missingFile
  | runtime
  | missingAttribute
  | validation (rejections : List Rejection)

/-- The name under which a kind of fault is reported. -/
def FaultKind.name : FaultKind → String
  | .type => "TypeError"
  | .value => "ValueError"
  | .zeroDivision => "ZeroDivisionError"
  | .overflow => "OverflowError"
  | .index => "IndexError"
  | .key => "KeyError"
  | .json => "JSONDecodeError"
  | .grammar => "SyntaxError"
  | .missingFile => "FileNotFoundError"
  | .runtime => "RuntimeError"
  | .missingAttribute => "AttributeError"
  | .validation _ => "ValidationError"

/-- Whether a kind of fault is of an operation on values: an arithmetic one, a wrong type or value, a
position or a key. -/
def FaultKind.isOperational : FaultKind → Bool
  | .grammar | .missingFile | .runtime | .missingAttribute => false
  | _ => true

/-- A failure of a primitive operation. -/
structure Fault where
  kind : FaultKind
  /-- the words of the operation that failed, when it has its own -/
  words : Option String := none

namespace Fault

/-- What a message shows of a fault: its words, or its kind between angle brackets. -/
def text (f : Fault) : String :=
  match f.words with
  | some t => t
  | none => "<" ++ f.kind.name ++ ">"

/-- A value of the wrong type. -/
def type : Fault := { kind := .type }

/-- A value outside the domain of an operation. -/
def value : Fault := { kind := .value }

/-- A division by zero. -/
def zeroDivision : Fault := { kind := .zeroDivision }

/-- A result out of range. -/
def overflow : Fault := { kind := .overflow }

/-- A position outside a sequence. -/
def index : Fault := { kind := .index }

/-- A key that a dictionary does not hold. -/
def key : Fault := { kind := .key }

/-- A text that is no JSON. -/
def json : Fault := { kind := .json }

/-- A value that cannot carry an attribute. -/
def missingAttribute : Fault := { kind := .missingAttribute }

/-- A wrong type, in words. -/
def typeSaying (t : String) : Fault := { kind := .type, words := some t }

/-- A value outside a domain, in words. -/
def valueSaying (t : String) : Fault := { kind := .value, words := some t }

/-- An integer with too many digits, in the words of the limit. -/
def digitLimit : Fault :=
  .valueSaying ("Exceeds the limit (4300 digits) for integer string conversion; " ++
    "use sys.set_int_max_str_digits() to increase the limit")

end Fault

end Patchbay
