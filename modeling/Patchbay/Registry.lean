import Patchbay.Error
import Patchbay.Kind

/-!
# Registry

The kinds that graphs may use, in the order of their first registration. A kind may be registered at
any time; a later registration under the same id takes the place of the earlier one, and nodes pick it
up the next time they execute.

Contents:
* `Registry`, `Registry.find?`, `Registry.lookup`.
* `Registry.register`: stores a kind and tells the listeners; `Registry.declare`, `Registry.adopt`: the kind of a
  declaration, or of a behaviour that was decorated with one.
* `Registry.inCategory`, `Registry.categories`.
-/

namespace Patchbay

/-- The kinds that graphs may use. -/
structure Registry (β : Type) where
  kinds : List (Kind β) := []
  /-- who hears of registrations, in order -/
  listeners : List String := []
  /-- what listeners have heard: listener and kind, oldest first -/
  heard : List (String × String) := []

namespace Registry

variable {β : Type}

/-- The current kind with an id. -/
def find? (r : Registry β) (kind : String) : Option (Kind β) := r.kinds.find? fun k => k.id == kind

/-- Whether a kind is registered. -/
def contains (r : Registry β) (kind : String) : Bool := (r.find? kind).isSome

/-- The current kind with an id, an error when there is none. -/
def lookup (r : Registry β) (kind : String) : Except Raised (Kind β) :=
  match r.find? kind with
  | some k => .ok k
  | none => .error (.cause (.unknownKind kind))

/-- Puts a kind in the place of one with the same id, or at the end. -/
def put (k : Kind β) : List (Kind β) → List (Kind β)
  | [] => [k]
  | x :: xs => if x.id == k.id then k :: xs else x :: put k xs

/-- Stores a kind and tells every listener. -/
def register (r : Registry β) (k : Kind β) : Registry β :=
  { r with kinds := put k r.kinds, heard := r.heard ++ r.listeners.map fun l => (l, k.id) }

/-- Stores the kind that a declaration stands for. -/
def declare (r : Registry β) (d : Declaration β) : Except Fault (Registry β) := do
  return r.register (← d.build)

/-- Stores the kind of a behaviour that was decorated with a declaration. -/
def adopt (r : Registry β) (d : Declaration β) : Except Fault (Registry β) := do r.declare (← d.decorated)

/-- The refusal of a value that carries no kind. -/
def refusal (v : Value) : Fault :=
  match v.repr with
  | .ok shown =>
    .valueSaying s!"Function {shown} must be decorated with @node_kind before registering"
  | .error f => f

/-- Adds a listener; adding one twice has no effect. -/
def subscribe (r : Registry β) (name : String) : Registry β :=
  if r.listeners.contains name then r else { r with listeners := r.listeners ++ [name] }

/-- Removes a listener. -/
def unsubscribe (r : Registry β) (name : String) : Registry β :=
  { r with listeners := r.listeners.erase name }

/-- What one listener has heard. -/
def heardBy (r : Registry β) (name : String) : List String :=
  (r.heard.filter fun e => e.1 == name).map Prod.snd

/-- The kinds of a category; all of them when none is named. -/
def inCategory (r : Registry β) (category : Option String) : List (Kind β) :=
  match nonEmpty? category with
  | some c => r.kinds.filter fun k => k.category == some c
  | none => r.kinds

/-- The categories, sorted. -/
def categories (r : Registry β) : List String :=
  (r.kinds.filterMap fun k => nonEmpty? k.category).eraseDups.mergeSort fun a b => decide (a ≤ b)

end Registry

end Patchbay
