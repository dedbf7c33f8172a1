import Patchbay.Error
import Patchbay.Expr.Function
import Patchbay.Expr.Printer

/-!
# What expressions may use

An expression that a user typed is checked before it is ever evaluated: constants, names, arithmetic,
comparisons, choices, displays, subscripts, and calls of the functions in the table. Everything else
is refused, and the first thing refused is reported.

Contents:
* `check`: refuses what is not allowed.
* `Tree.names`: the names in a tree.
* `freeNames`: the names that evaluation looks up outside the tables.
-/

namespace Patchbay.Expr

/-- Whether an expression may use a binary operator. -/
def BinaryOp.allowed : BinaryOp → Bool
  | .add | .sub | .mult | .div | .floorDiv | .mod | .pow => true
  | _ => false

/-- Whether an expression may use a unary operator. -/
def UnaryOp.allowed : UnaryOp → Bool
  | .plus | .minus | .not => true
  | .invert => false

/-- Whether an expression may use a comparison. -/
def CompareOp.allowed : CompareOp → Bool
  | .is | .isNot => false
  | _ => true

/-- Whether an expression may use a constant. -/
def Constant.allowed : Constant → Bool
  | .imaginary _ | .bytes _ | .ellipsis => false
  | _ => true

/-- The function a callee names. -/
def callee? : Tree → Option Function
  | .name id => Function.ofName? id
  | _ => none

/-- The first comparison that is not allowed. -/
def refusedComparison? (rest : List (CompareOp × Tree)) : Option CompareOp :=
  (rest.find? fun c => !c.1.allowed).map Prod.fst

mutual

/-- Refuses what an expression may not use. -/
def check : Tree → Except Cause Unit
  | .const c => if c.allowed then .ok () else .error (.constantRefused c.shown)
  | .name id => if id.toList.head? == some '_' then .error (.nameRefused id) else .ok ()
  | .binary op l r => do
    if !op.allowed then .error (.operatorRefused op.label)
    check l
    check r
  | .unary op e => do
    if !op.allowed then .error (.operatorRefused op.label)
    check e
  | .logic _ es => checkList es
  | .compare l rest => do
    match refusedComparison? rest with
    | some op => .error (.comparisonRefused op.label)
    | none =>
      check l
      checkComparisons rest
  | .choice test body orelse => do
    check test
    check body
    check orelse
  | .subscript v i => do
    check v
    check i
  | .slice lo hi step => do
    checkOption lo
    checkOption hi
    checkOption step
  | .list es => checkList es
  | .tuple es => checkList es
  | .dict es => do
    checkKeys es
    checkValues es
  | .call f args names _ => do
    match callee? f with
    | none => .error (.callRefused f.text)
    | some _ =>
      if !names.isEmpty then .error .keywordsRefused
      checkArgs args
  | t => .error (.constructRefused t.label)

/-- Refuses what one of several trees may not use. -/
def checkList : List Tree → Except Cause Unit
  | [] => .ok ()
  | e :: es => do
    check e
    checkList es

/-- Refuses what one of several arguments may not use; none may be starred. -/
def checkArgs : List Tree → Except Cause Unit
  | [] => .ok ()
  | e :: es => do
    match e with
    | .starred _ => .error .starRefused
    | e => check e
    checkArgs es

/-- Refuses what a tree that may be absent may not use. -/
def checkOption : Option Tree → Except Cause Unit
  | none => .ok ()
  | some e => check e

/-- Refuses what the operands of comparisons may not use. -/
def checkComparisons : List (CompareOp × Tree) → Except Cause Unit
  | [] => .ok ()
  | c :: cs => do
    checkComparison c
    checkComparisons cs

/-- Refuses what the operand of one comparison may not use. -/
def checkComparison : CompareOp × Tree → Except Cause Unit
  | (_, e) => check e

/-- Refuses what the keys of entries may not use; every entry needs one. -/
def checkKeys : List (Option Tree × Tree) → Except Cause Unit
  | [] => .ok ()
  | e :: es => do
    checkKey e
    checkKeys es

/-- Refuses what the key of one entry may not use. -/
def checkKey : Option Tree × Tree → Except Cause Unit
  | (none, _) => .error .spreadRefused
  | (some k, _) => check k

/-- Refuses what the values of entries may not use. -/
def checkValues : List (Option Tree × Tree) → Except Cause Unit
  | [] => .ok ()
  | e :: es => do
    checkValue e
    checkValues es

/-- Refuses what the value of one entry may not use. -/
def checkValue : Option Tree × Tree → Except Cause Unit
  | (_, v) => check v

end

/-! ## Names -/

mutual

/-- The names in a tree that passed the check, from left to right. -/
def Tree.names : Tree → List String
  | .name id => [id]
  | .binary _ l r => l.names ++ r.names
  | .unary _ e => e.names
  | .logic _ es => namesOfList es
  | .compare l rest => l.names ++ namesOfComparisons rest
  | .choice test body orelse => test.names ++ body.names ++ orelse.names
  | .subscript v i => v.names ++ i.names
  | .slice lo hi step => namesOfOption lo ++ namesOfOption hi ++ namesOfOption step
  | .list es => namesOfList es
  | .tuple es => namesOfList es
  | .dict es => namesOfEntries es
  | .call f args _ _ => f.names ++ namesOfList args
  | _ => []

/-- The names in several trees. -/
def namesOfList : List Tree → List String
  | [] => []
  | e :: es => e.names ++ namesOfList es

/-- The names in a tree that may be absent. -/
def namesOfOption : Option Tree → List String
  | none => []
  | some e => e.names

/-- The names in the operands of comparisons. -/
def namesOfComparisons : List (CompareOp × Tree) → List String
  | [] => []
  | c :: cs => namesOfComparison c ++ namesOfComparisons cs

/-- The names in the operand of one comparison. -/
def namesOfComparison : CompareOp × Tree → List String
  | (_, e) => e.names

/-- The names in entries. -/
def namesOfEntries : List (Option Tree × Tree) → List String
  | [] => []
  | e :: es => namesOfEntry e ++ namesOfEntries es

/-- The names in one entry. -/
def namesOfEntry : Option Tree × Tree → List String
  | (k, v) => namesOfOption k ++ v.names

end

/-- The names in a tree that are neither functions nor constants, each once. -/
def freeNames (t : Tree) : List String :=
  (t.names.filter fun id => (Function.ofName? id).isNone && !constants.has id).eraseDups

end Patchbay.Expr
