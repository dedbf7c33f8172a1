import Patchbay.Library.Entry

/-!
# Control flow

Choice, loops and waiting. A loop asks once for each pass whether execution goes on, so that a stop
takes effect between two passes.
-/

namespace Patchbay.Library

open Patchbay.Action

/-- Continues along one of two outputs. -/
def choice : Declaration Behavior :=
  entry "logic.if" "If / Else" "Logic" .statement
    [given "condition" .boolean (.bool true)] [leads "then", leads "else"] none
    (fun _ => toScript do
      let holds ← pullTruth "condition"
      pure (.str (if holds then "then" else "else")))

/-- Runs its body while a condition holds. -/
def whileLoop : Declaration Behavior :=
  entry "logic.while" "While Loop" "Logic" .statement
    [given "condition" .boolean (.bool true)] [leads "loop", leads "exit"]
    (some "Run ``loop`` while the condition holds, then ``exit``.")
    (fun _ => toScript do
      if ← checkpoint then
        if ← pullTruth "condition" then
          advance "loop"
          again .null
      advance "exit"
      pure .null)

/-- The end of a counting loop. -/
def countingDone : Action Value := do
  advance "done"
  pure .null

/-- A pass of a counting loop at an index, or its end. -/
def countingPass (index bound : Int) : Action Value := do
  if index < bound then
    if ← checkpoint then
      ask (.memoize "index" (.int index))
      advance "loop"
      again (.tuple [.int (index + 1), .int bound])
    else countingDone
  else countingDone

/-- The whole number at an input. -/
def pullInteger (port : String) : Action Int := do
  let v ← pull port
  match ← primitive (Expr.toInteger v) with
  | .int n => pure n
  | _ => fail (.fault .type)

/-- Runs its body for each index of a range. The local state of a loop under way holds the next index
and the bound. -/
def countingLoop : Declaration Behavior :=
  entry "logic.for" "For Loop" "Logic" .statement
    [given "from" .number (.int 0), given "to" .number (.int 10)]
    [leads "loop", leads "done", yields "index" .number]
    (some ("Run ``loop`` once per index in [from, to), publishing ``index`` before\n" ++
      "    each pass, then ``done`` once. A stop request ends the loop early."))
    (fun state => toScript (match state with
      | .tuple [.int index, .int bound] => countingPass index bound
      | _ => do
        let first ← pullInteger "from"
        let bound ← pullInteger "to"
        countingPass first bound))

/-- Lets a time pass, and continues unless execution was stopped. -/
def pause : Declaration Behavior :=
  entry "logic.wait" "Wait (ms)" "Logic" .statement [given "ms" .number (.int 1000)] []
    (some "Suspend this trigger, then continue unless execution was stopped.")
    (fun _ => toScript do
      let seconds ← secondsOf (← pull "ms")
      if ← sleep seconds then pure .null
      else do
        ask .halt
        pure .null)

end Patchbay.Library
