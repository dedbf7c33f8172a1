import Patchbay.Library.Palette

/-!
# Inspection

The clock and the program log.
-/

namespace Patchbay.Library

open Patchbay.Action

/-- The time. -/
def timestamp : Declaration Behavior :=
  entry "time.now" "Timestamp" "Time" .expression [] [yields "value" .number]
    (some "Milliseconds since the epoch.")
    (fun _ => toScript do
      let ms ← ask .clock
      pure (outputs [("value", .int ms)]))

/-- Writes to the program log. -/
def log : Declaration Behavior :=
  entry "debug.log" "Log" "Debug" .statement
    [given "message" .any (.str ""), given "level" .string (.str "info")] []
    (some "Write a message to the program log.")
    (fun _ => toScript do
      let message ← pull "message"
      let level ← pull "level"
      ask (.log level message)
      pure .null)

end Patchbay.Library
