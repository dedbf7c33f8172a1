import Patchbay.Value.Basic

/-!
# Expression trees

The trees that expression text is parsed into. The language that users type is the small one that
`Patchbay.Expr.Whitelist` allows; the trees cover all of the host notation, because a rejected
expression is reported by the name of what it used.

Contents:
* `Constant`, `BinaryOp`, `UnaryOp`, `CompareOp`, `Params`, `Tree`.
* `Tree.name?`s of operators and constructors, as reports show them.
-/

namespace Patchbay.Expr

/-- A literal constant. -/
inductive Constant where
  | null
  | bool (b : Bool)
  | int (n : Nat)
  | float (x : Float)
  | imaginary (x : Float)
  /-- text; `marked` when it was written with the letter `u` -/
  | str (s : String) (marked : Bool)
  | bytes (codes : List Nat)
  | ellipsis

/-- Operators between two operands. -/
inductive BinaryOp where
  | add
  | sub
  | mult
  | div
  | floorDiv
  | mod
  | pow
  | matMult
  | lShift
  | rShift
  | bitOr
  | bitXor
  | bitAnd
deriving DecidableEq

/-- Operators in front of an operand. -/
inductive UnaryOp where
  | invert
  | not
  | plus
  | minus
deriving DecidableEq

/-- Comparison operators. -/
inductive CompareOp where
  | eq
  | notEq
  | lt
  | ltE
  | gt
  | gtE
  | is
  | isNot
  | isIn
  | notIn
deriving DecidableEq

/-- What a comprehension builds. -/
inductive Comprehension where
  | list
  | set
  | generator
  | dict
deriving DecidableEq

/-- The parameters of a lambda: names, each with whether it has a default. -/
structure Params where
  positionalOnly : List (String × Bool)
  positional : List (String × Bool)
  rest : Option String
  keywordOnly : List (String × Bool)
  keywordRest : Option String

/-- An expression. -/
inductive Tree where
  | const (c : Constant)
  | name (id : String)
  | binary (op : BinaryOp) (left right : Tree)
  | unary (op : UnaryOp) (operand : Tree)
  /-- `and` when `both` holds, `or` otherwise, of two or more operands -/
  | logic (both : Bool) (operands : List Tree)
  | compare (left : Tree) (rest : List (CompareOp × Tree))
  | choice (test body orelse : Tree)
  | subscript (value index : Tree)
  | slice (lower upper step : Option Tree)
  | list (items : List Tree)
  | tuple (items : List Tree)
  | set (items : List Tree)
  /-- entries of a dictionary display; one without a key spreads another dictionary -/
  | dict (entries : List (Option Tree × Tree))
  /-- a call; `keywords` names the values of `values`, nothing for a spread dictionary -/
  | call (func : Tree) (args : List Tree) (keywords : List (Option String)) (values : List Tree)
  | starred (value : Tree)
  | attribute (value : Tree) (attr : String)
  | lambda (params : Params) (defaults : List Tree) (body : Tree)
  /-- a comprehension; a clause holds its target, its source and its conditions, in this order -/
  | comprehension (kind : Comprehension) (items : List Tree) (clauses : List (Bool × List Tree))
  | await (value : Tree)
  | yield (value : Option Tree)
  | yieldFrom (value : Tree)
  | named (target : String) (value : Tree)
  | joined (parts : List Tree)
  | formatted (value : Tree) (conversion : Option Char) (spec : Option Tree)

/-! ## Names in reports -/

/-- The name of an operator in a report. -/
def BinaryOp.label : BinaryOp → String
  | .add => "Add"
  | .sub => "Sub"
  | .mult => "Mult"
  | .div => "Div"
  | .floorDiv => "FloorDiv"
  | .mod => "Mod"
  | .pow => "Pow"
  | .matMult => "MatMult"
  | .lShift => "LShift"
  | .rShift => "RShift"
  | .bitOr => "BitOr"
  | .bitXor => "BitXor"
  | .bitAnd => "BitAnd"

/-- The name of an operator in a report. -/
def UnaryOp.label : UnaryOp → String
  | .invert => "Invert"
  | .not => "Not"
  | .plus => "UAdd"
  | .minus => "USub"

/-- The name of an operator in a report. -/
def CompareOp.label : CompareOp → String
  | .eq => "Eq"
  | .notEq => "NotEq"
  | .lt => "Lt"
  | .ltE => "LtE"
  | .gt => "Gt"
  | .gtE => "GtE"
  | .is => "Is"
  | .isNot => "IsNot"
  | .isIn => "In"
  | .notIn => "NotIn"

/-- The name of a comprehension in a report. -/
def Comprehension.label : Comprehension → String
  | .list => "ListComp"
  | .set => "SetComp"
  | .generator => "GeneratorExp"
  | .dict => "DictComp"

/-- The name of a construct in a report. -/
def Tree.label : Tree → String
  | .const _ => "Constant"
  | .name _ => "Name"
  | .binary _ _ _ => "BinOp"
  | .unary _ _ => "UnaryOp"
  | .logic _ _ => "BoolOp"
  | .compare _ _ => "Compare"
  | .choice _ _ _ => "IfExp"
  | .subscript _ _ => "Subscript"
  | .slice _ _ _ => "Slice"
  | .list _ => "List"
  | .tuple _ => "Tuple"
  | .set _ => "Set"
  | .dict _ => "Dict"
  | .call _ _ _ _ => "Call"
  | .starred _ => "Starred"
  | .attribute _ _ => "Attribute"
  | .lambda _ _ _ => "Lambda"
  | .comprehension kind _ _ => kind.label
  | .await _ => "Await"
  | .yield _ => "Yield"
  | .yieldFrom _ => "YieldFrom"
  | .named _ _ => "NamedExpr"
  | .joined _ => "JoinedStr"
  | .formatted _ _ _ => "FormattedValue"

end Patchbay.Expr
