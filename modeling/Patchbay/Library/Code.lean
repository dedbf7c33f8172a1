import Patchbay.Library.Palette

/-!
# Expressions as nodes

A node that evaluates its own text. The checked expression is kept in the node's state and used again
while the text is unchanged, and the variables are only read when the expression names one.
-/

namespace Patchbay.Library

open Patchbay.Action

/-- The key under which the expression is kept. -/
def expressionKey : String := "expression"

/-- Whether an expression was made from a source. -/
def madeFrom (e : Expr.Expression) (source : Value) : Bool := source.same (.str e.source)

/-- The kept expression for a source, or a new one, which is then kept. -/
def expressionFor (source : Value) : Action Expr.Expression := do
  let fresh : Action Expr.Expression := do
    let e ← ofExcept (match Expr.Expression.compile source with
      | .ok e => .ok e
      | .error c => .error (.cause c))
    ask (.keep expressionKey (.expression e))
    pure e
  match ← ask (.kept expressionKey) with
  | some (.expression e) => if madeFrom e source then pure e else fresh
  | _ => fresh

/-- Evaluates a text with the variables and `x`. -/
def code : Declaration Behavior :=
  { entry "script.eval" "Script" "Script" .expression
      [given "code" .string (.str "x"), given "x" .any (.int 0)] [yields "value" .any]
      (some ("Evaluate ``code`` with ``x`` and the global variables in scope.\n\n" ++
        "    The parsed expression is kept in the node's state and reused while the\n    code is unchanged."))
      (fun _ => toScript do
        let e ← expressionFor (← pull "code")
        let names ← if e.names.any fun n => n != "x" then ask .readVariables else pure []
        let x ← pull "x"
        let v ← ofExcept (e.evaluate (names.set "x" x))
        pure (outputs [("value", v)])) with
    teardown := some (.forget expressionKey) }

end Patchbay.Library
