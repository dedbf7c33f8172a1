import Patchbay.Value.Basic

/-!
# Variables

The variables that all triggers share. The store counts its changes, and knows at which count each
name last changed, so that a reader can tell whether what it read is still current.

Contents:
* `Variables`, `Variables.versionOf`.
* `Variables.set`, `Variables.delete`, `Variables.load`, `Variables.clear`.
-/

namespace Patchbay

/-- Variables with the history of their changes. -/
structure Variables where
  values : Named := []
  /-- how often the store has changed -/
  version : Nat := 0
  /-- the version at which a name last changed by itself -/
  changed : List (String × Nat) := []
  /-- the version at which all names last changed together -/
  reset : Nat := 0

namespace Variables

/-- The value of a variable. -/
def get? (s : Variables) (name : String) : Option Value := s.values.get? name

/-- Whether a variable is set. -/
def contains (s : Variables) (name : String) : Bool := s.values.has name

/-- The version at which a name last changed. -/
def versionOf (s : Variables) (name : String) : Nat := max ((s.changed.lookup name).getD 0) s.reset

/-- Notes that a name has changed. -/
def touch (s : Variables) (name : String) : Variables :=
  { s with
    version := s.version + 1
    changed := (name, s.version + 1) :: s.changed.filter fun e => e.1 != name }

/-- Sets a variable. -/
def set (s : Variables) (name : String) (v : Value) : Variables :=
  { s with values := s.values.set name v }.touch name

/-- Removes a variable; removing one that is not set changes nothing. -/
def delete (s : Variables) (name : String) : Variables :=
  if s.contains name then { s with values := s.values.erase name }.touch name else s

/-- Replaces all variables. -/
def load (s : Variables) (values : Named) : Variables :=
  { s with values := values, version := s.version + 1, reset := s.version + 1 }

/-- Removes all variables. -/
def clear (s : Variables) : Variables := s.load []

end Variables

end Patchbay
