import Patchbay.Engine.Turn

/-!
# Sessions

A session is a list of requests to one engine, answered one after another on a strand of its own.

Contents:
* `Engine.advance`: one turn or one job; `Engine.runFor`: a number of them.
* `Engine.session`: the answers to a list of requests.
-/

namespace Patchbay.Engine

/-- One turn of the strand that is under way, or the next job of the loop. Nothing follows when all
requests are answered or nothing is left to run. -/
def advance (t : Turn) : Option Turn :=
  match t.next with
  | some (s, next) => some (t.engine.turn s next)
  | none =>
    if t.engine.closed then none
    else match t.engine.scheduler.loop.next? with
      | none => none
      | some (job, loop) =>
        some ({ t.engine with scheduler := { t.engine.scheduler with loop := loop } }.handle job)

/-- Up to a number of turns and jobs. -/
def runFor : Nat → Turn → Engine
  | 0, t => t.engine
  | n + 1, t => match advance t with
    | none => t.engine
    | some t => runFor n t

/-- More turns than any session takes. -/
def turnBound : Nat := 1000000000

/-- Answers a list of requests. -/
def session (e : Engine) (requests : List Request) : Engine :=
  let s : Strand := { id := e.nextStrand, frames := [] }
  runFor turnBound ({ e with nextStrand := e.nextStrand + 1, todo := requests }.nextRequest s)

end Patchbay.Engine
