import Patchbay.Library.Code
import Patchbay.Library.ControlFlow
import Patchbay.Library.Data
import Patchbay.Library.Inspection
import Patchbay.Library.Numbers
import Patchbay.Library.Texts
import Patchbay.Library.Truth

/-!
# The library

The kinds that every palette starts with.

Contents:
* `Library.declarations`: all of them, in the order of the palette.
* `Library.registerAll`, `Library.registry`.
-/

namespace Patchbay.Library

/-- The kinds of the library, in order. -/
def declarations : List (Declaration Behavior) :=
  [interval, listener, choice, whileLoop, countingLoop, pause, both, either, negation, comparison, sum,
    difference, product, quotient, someNumber, clamp, sine, concatenation, textLength, upperCase,
    template, setVariable, getVariable, jsonParse, arrayPop, arrayPush, timestamp, log, code, start]

/-- Registers all kinds of the library. -/
def registerAll (r : Registry Behavior) : Registry Behavior :=
  declarations.foldl (fun r d => match d.build with
    | .ok k => r.register k
    | .error _ => r) r

/-- A registry with the kinds of the library. -/
def registry : Registry Behavior := registerAll {}

end Patchbay.Library
