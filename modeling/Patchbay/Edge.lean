/-!
# Edges

A wire from an output port of one node to an input port of another.

Contents:
* `Edge`, its endpoints and its text in messages.
-/

namespace Patchbay

/-- A wire from an output port to an input port. -/
structure Edge where
  source : String
  sourcePort : String
  dest : String
  destPort : String
deriving DecidableEq, Hashable

namespace Edge

/-- The node and port that an edge ends at. -/
def destination (e : Edge) : String × String := (e.dest, e.destPort)

/-- Whether one of the endpoints is the given node. -/
def touches (e : Edge) (node : String) : Bool := node == e.source || node == e.dest

/-- Whether an edge ends at the given port. -/
def endsAt (e : Edge) (node port : String) : Bool := e.dest == node && e.destPort == port

/-- The text of an edge in messages. -/
def text (e : Edge) : String :=
  "Edge(" ++ e.source ++ "." ++ e.sourcePort ++ " -> " ++ e.dest ++ "." ++ e.destPort ++ ")"

end Edge

end Patchbay
