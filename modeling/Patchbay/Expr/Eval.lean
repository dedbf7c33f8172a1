import Patchbay.Expr.Parser
import Patchbay.Expr.Whitelist
import Patchbay.Text.Blank
import Patchbay.Value.Percent

/-!
# Evaluating expressions

An expression is evaluated by walking its tree. Names come from the caller's mapping first and from
the constants second, and calls go to the fixed table, so an expression reaches nothing else. Texts,
lists and tuples built by operators are bounded in length, and exponents are bounded in size.

An evaluation that stops with a fault of an operation is reported with its source and the text of the
fault. The text of a missing key shows the key, and an integer in it may be too long to be written; then
it is the fault of writing it that is raised.

Contents:
* `Halt`: what stops an evaluation.
* `eval`: the value of a tree.
* `Expression`, `Expression.compile`, `Expression.evaluate`: a checked expression.
-/

namespace Patchbay.Expr

/-- What stops an evaluation. -/
inductive Halt where
  /-- an error of expressions -/
  | failure (c : Cause)
  /-- a fault of an operation -/
  | fault (f : Fault)
  /-- a dictionary does not hold a key -/
  | missing (key : Value)

/-- The result of an operation in an evaluation. -/
def Halt.lift {α : Type} (r : Except Fault α) : Except Halt α :=
  match r with
  | .ok a => .ok a
  | .error f => .error (.fault f)

/-! ## Limits -/

/-- Longest source text, in characters. -/
def maxSourceLength : Nat := 2000

/-- Longest text, list or tuple that an operator may build. -/
def maxSequenceLength : Nat := 10000

/-- Greatest size of an exponent. -/
def maxExponent : Int := 1000

/-- The length of a text, list or tuple. -/
def sequenceLength? : Value → Option Nat
  | .str s => some s.length
  | .list xs => some xs.length
  | .tuple xs => some xs.length
  | _ => none

/-- Whether a product would repeat a sequence beyond the limit. -/
def repeatsTooMuch (u v : Value) : Bool :=
  let exceeds (n : Nat) (k : Int) : Bool := n * k > maxSequenceLength
  match sequenceLength? u, v.asInt? with
  | some n, some k => exceeds n k
  | _, _ => match sequenceLength? v, u.asInt? with
    | some n, some k => exceeds n k
    | _, _ => false

/-- Whether an exponent is beyond the limit. -/
def exponentOver (v : Value) : Bool :=
  match v with
  | .float x => x.abs > 1000.0
  | v => match v.asInt? with
    | some n => n.natAbs > maxExponent
    | none => false

/-- Refuses a sequence beyond the limit. -/
def bounded (v : Value) : Except Halt Value :=
  match sequenceLength? v with
  | some n => if n > maxSequenceLength then .error (.failure .resultTooLarge) else .ok v
  | none => .ok v

/-! ## Operators -/

/-- The value of a binary operator. -/
def binaryValue (op : BinaryOp) (u v : Value) : Except Halt Value :=
  let plain (f : Value → Value → Except Fault Value) : Except Halt Value := do
    bounded (← Halt.lift (f u v))
  match op with
  | .add => plain Value.add
  | .sub => plain Value.sub
  | .mult => if repeatsTooMuch u v then .error (.failure .resultTooLarge) else plain Value.mul
  | .div => plain Value.div
  | .floorDiv => plain Value.floorDiv
  | .mod => plain Value.mod
  | .pow =>
    if exponentOver v then do
      let shown ← Halt.lift (Value.worded v.toText)
      .error (.failure (.exponentTooLarge shown))
    else plain Value.pow
  | op => .error (.failure (.operatorRefused op.label))

/-- The value of a unary operator. -/
def unaryValue (op : UnaryOp) (v : Value) : Except Halt Value :=
  match op with
  | .plus => Halt.lift v.pos
  | .minus => Halt.lift v.neg
  | .not => .ok (.bool !v.truthy)
  | .invert => .error (.failure (.operatorRefused op.label))

/-- Whether an order relation holds, a fault when there is no order. -/
def orderHolds (r : Relation) (u v : Value) : Except Halt Bool :=
  match Value.related? r u v with
  | some b => .ok b
  | none => .error (.fault .type)

/-- Whether a comparison holds. -/
def compareHolds (op : CompareOp) (u v : Value) : Except Halt Bool :=
  match op with
  | .eq => .ok (Value.same u v)
  | .notEq => .ok !(Value.same u v)
  | .lt => orderHolds .lt u v
  | .ltE => orderHolds .le u v
  | .gt => orderHolds .gt u v
  | .gtE => orderHolds .ge u v
  | .isIn => Halt.lift (v.contains u)
  | .notIn => do return !(← Halt.lift (v.contains u))
  | op => .error (.failure (.comparisonRefused op.label))

/-- The value of an allowed constant. -/
def Constant.value? : Constant → Option Value
  | .null => some .null
  | .bool b => some (.bool b)
  | .int n => some (.int n)
  | .float x => some (.float x)
  | .str s _ => some (.str s)
  | _ => none

/-- The value of a name: the caller's mapping first, then the constants. -/
def lookupName (names : Named) (id : String) : Except Halt Value :=
  match names.get? id with
  | some v => .ok v
  | none => match constants.get? id with
    | some v => .ok v
    | none => .error (.failure (.nameUndefined id))

/-- The item of a value under a subscript. -/
def itemOf (u k : Value) : Except Halt Value :=
  match u.item k with
  | .ok v => .ok v
  | .error f => match f.kind with
    | .key => .error (.missing k)
    | _ => .error (.fault f)

/-- Adds an entry to a dictionary display. -/
def addEntry (d : Dict) (k v : Value) : Except Halt Dict :=
  if k.hashable then .ok (Dict.set d k v) else .error (.fault .type)

/-! ## Trees -/

mutual

/-- The value of a tree. A tree that passed `check` is never refused here. -/
def eval (names : Named) : Tree → Except Halt Value
  | .const c => match c.value? with
    | some v => .ok v
    | none => .error (.failure (.constantRefused c.shown))
  | .name id => lookupName names id
  | .binary op l r => do
    let u ← eval names l
    let v ← eval names r
    binaryValue op u v
  | .unary op e => do
    let v ← eval names e
    unaryValue op v
  | .logic both es => evalLogic names both (.bool both) es
  | .compare l rest => do
    let u ← eval names l
    let b ← evalComparisons names u rest
    return .bool b
  | .choice test body orelse => do
    let t ← eval names test
    if t.truthy then eval names body else eval names orelse
  | .subscript e i => do
    let u ← eval names e
    match i with
    | .slice lo hi step => do
      let a ← evalOption names lo
      let b ← evalOption names hi
      let c ← evalOption names step
      Halt.lift (u.slice a b c)
    | .tuple es => do
      let (ks, sliced) ← evalSubscripts names es
      if sliced then .error (.fault .type) else itemOf u (.tuple ks)
    | i => do
      let k ← eval names i
      itemOf u k
  | .list es => do return .list (← evalList names es)
  | .tuple es => do return .tuple (← evalList names es)
  | .dict es => do return .dict (← evalEntries names [] es)
  | .call f args _ _ => match callee? f with
    | some g => do
      let vs ← evalList names args
      Halt.lift (g.apply vs)
    | none => .error (.failure (.callRefused f.text))
  | t => .error (.failure (.constructRefused t.label))

/-- The values of several trees. -/
def evalList (names : Named) : List Tree → Except Halt (List Value)
  | [] => .ok []
  | e :: es => do
    let v ← eval names e
    let vs ← evalList names es
    return v :: vs

/-- The values of several subscripts, and whether a slice is among them. -/
def evalSubscripts (names : Named) : List Tree → Except Halt (List Value × Bool)
  | [] => .ok ([], false)
  | e :: es => do
    let (v, sliced) ← match e with
      | .slice lo hi step => do
        let _ ← evalOption names lo
        let _ ← evalOption names hi
        let _ ← evalOption names step
        pure (Value.null, true)
      | e => do pure (← eval names e, false)
    let (vs, more) ← evalSubscripts names es
    return (v :: vs, sliced || more)

/-- The value of a tree that may be absent. -/
def evalOption (names : Named) : Option Tree → Except Halt Value
  | none => .ok .null
  | some e => eval names e

/-- The first operand that decides `and` or `or`, or the last one. -/
def evalLogic (names : Named) (both : Bool) (last : Value) : List Tree → Except Halt Value
  | [] => .ok last
  | e :: es => do
    let v ← eval names e
    if v.truthy == both then evalLogic names both v es else return v

/-- Whether a chain of comparisons holds, each operand being looked at once. -/
def evalComparisons (names : Named) (u : Value) : List (CompareOp × Tree) → Except Halt Bool
  | [] => .ok true
  | c :: cs => do
    let (op, v) ← evalComparison names c
    if ← compareHolds op u v then evalComparisons names v cs else return false

/-- A comparison operator with the value of its operand. -/
def evalComparison (names : Named) : CompareOp × Tree → Except Halt (CompareOp × Value)
  | (op, e) => do return (op, ← eval names e)

/-- The dictionary of a display, entry by entry. -/
def evalEntries (names : Named) (d : Dict) : List (Option Tree × Tree) → Except Halt Dict
  | [] => .ok d
  | e :: es => do
    let (k, v) ← evalEntry names e
    evalEntries names (← addEntry d k v) es

/-- The key and value of an entry. -/
def evalEntry (names : Named) : Option Tree × Tree → Except Halt (Value × Value)
  | (some k, v) => do
    let a ← eval names k
    let b ← eval names v
    return (a, b)
  | (none, _) => .error (.failure (.constructRefused "NoneType"))

end

/-! ## Checked expressions -/

/-- A source text and its tree, which passed the check. -/
structure Expression where
  source : String
  tree : Tree
  short : source.length ≤ maxSourceLength
  parsed : parse? (Text.strip source) = some tree
  checked : check tree = .ok ()

namespace Expression

/-- Parses and checks a source. -/
def compile (source : Value) : Except Cause Expression :=
  match source with
  | .str s =>
    if hlong : s.length > maxSourceLength then .error (.tooLong maxSourceLength)
    else match hparsed : parse? (Text.strip s) with
      | none => .error (.invalidExpression s)
      | some tree => match hchecked : check tree with
        | .ok () => .ok ⟨s, tree, Nat.le_of_not_lt hlong, hparsed, hchecked⟩
        | .error c => .error c
  | v => .error (.notText v.typeName)

/-- An expression is what its source is compiled to. -/
theorem compile_source (e : Expression) : compile (.str e.source) = .ok e := by
  obtain ⟨source, tree, short, parsed, checked⟩ := e
  simp only [compile]
  rw [dif_neg (Nat.not_lt.mpr short)]
  split
  · next h => cases h.symm.trans parsed
  · next t h =>
    obtain rfl := Option.some.inj (h.symm.trans parsed)
    split
    · rfl
    · next h' => cases h'.symm.trans checked

/-- The names an expression looks up outside the tables. -/
def names (e : Expression) : List String := freeNames e.tree

/-- The text of an expression in messages. -/
def text (e : Expression) : String := "SafeExpression(" ++ Text.quote e.source ++ ")"

/-- The error of an evaluation that stopped. Faults of operations are reported with the source. -/
def raised (e : Expression) : Halt → Raised
  | .failure c => .cause c
  | .fault f => if f.kind.isOperational then .cause (.evaluationFailed e.source f) else .fault f
  | .missing key => match Value.worded key.repr with
    | .ok _ => .cause (.evaluationFailed e.source .key)
    | .error f => .fault f

/-- The value under the given names. -/
def evaluate (e : Expression) (names : Named) : Except Raised Value :=
  match eval names e.tree with
  | .ok v => .ok v
  | .error h => .error (e.raised h)

end Expression

end Patchbay.Expr
