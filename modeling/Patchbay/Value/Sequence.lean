import Patchbay.Fault
import Patchbay.Value.Arithmetic

/-!
# Items of values

Reading an item or a slice of a text, list or tuple, the value under a key of a dictionary, and
membership. Positions count from the end when negative; slices never fail on positions outside.

Contents:
* `Value.items`: the values a value iterates over.
* `Value.item`, `Value.slice`: subscripts.
* `Value.contains`: membership.
* `Value.size`: the number of items.
-/

namespace Patchbay.Value

/-- The values a value iterates over: items, characters or keys. -/
def items : Value → Except Fault (List Value)
  | str s => .ok (s.toList.map fun c => str c.toString)
  | list xs => .ok xs
  | tuple xs => .ok xs
  | dict es => .ok (es.map Prod.fst)
  | _ => .error .type

/-- The number of items, characters or entries. -/
def size : Value → Except Fault Nat
  | str s => .ok s.length
  | list xs => .ok xs.length
  | tuple xs => .ok xs.length
  | dict es => .ok es.length
  | _ => .error .type

/-- The item of a list at a position that may count from the end. -/
def itemAt {α : Type} (xs : List α) (i : Int) : Except Fault α :=
  let k := if i < 0 then i + xs.length else i
  if k < 0 then .error .index
  else match xs[k.toNat]? with
    | some x => .ok x
    | none => .error .index

/-- A position given as a value. -/
def position (v : Value) : Except Fault Int :=
  match v.asInt? with
  | some n => .ok n
  | none => .error .type

/-- The item of a value under a subscript. -/
def item (u k : Value) : Except Fault Value :=
  match u with
  | str s => do return str (← itemAt s.toList (← position k)).toString
  | list xs => do itemAt xs (← position k)
  | tuple xs => do itemAt xs (← position k)
  | dict es =>
    if !k.hashable then .error .type
    else match Dict.get? es k with
      | some v => .ok v
      | none => .error .key
  | _ => .error .type

/-! ## Slices -/

/-- A bound of a slice: absent, or a position. -/
def bound? : Value → Except Fault (Option Int)
  | null => .ok none
  | v => return some (← position v)

/-- A bound moved into the range that a slice with the given step may use. -/
def clampBound (size : Nat) (down : Bool) (i : Int) : Int :=
  let low : Int := if down then -1 else 0
  let high : Int := if down then size - 1 else size
  let k := if i < 0 then i + size else i
  if k < low then low else if k > high then high else k

/-- The positions a slice visits: `count` of them from `start` on. -/
def strideItems {α : Type} (xs : Array α) (start step : Int) (count : Nat) : List α :=
  (List.range count).filterMap fun (i : Nat) => xs[(start + step * i).toNat]?

/-- The items of a slice of a list. -/
def sliceList {α : Type} (xs : List α) (lo hi : Option Int) (step : Int) : List α :=
  let n := xs.length
  let down := step < 0
  let start := match lo with
    | some i => clampBound n down i
    | none => if down then (n : Int) - 1 else 0
  let stop := match hi with
    | some i => clampBound n down i
    | none => if down then -1 else n
  let span := if down then start - stop else stop - start
  if span ≤ 0 then []
  else strideItems xs.toArray start step ((span - 1) / (step.natAbs : Int) + 1).toNat

/-- A slice of a text, list or tuple. The step is looked at first; zero is no step. -/
def slice (u lo hi step : Value) : Except Fault Value :=
  if !u.isSequence then .error .type
  else do
    let step := (← bound? step).getD 1
    if step == 0 then .error .value
    else
      let lo ← bound? lo
      let hi ← bound? hi
      match u with
      | str s => return str (String.ofList (sliceList s.toList lo hi step))
      | list xs => return list (sliceList xs lo hi step)
      | tuple xs => return tuple (sliceList xs lo hi step)
      | _ => .error .type

/-! ## Membership -/

/-- Whether one list of characters stands somewhere in another. -/
def isInfixOf (needle : List Char) : List Char → Bool
  | [] => needle.isEmpty
  | c :: rest => needle.isPrefixOf (c :: rest) || isInfixOf needle rest

/-- Whether a value is an item, a part of a text, or a key. -/
def contains (container x : Value) : Except Fault Bool :=
  match container with
  | str s => match x with
    | str t => .ok (isInfixOf t.toList s.toList)
    | _ => .error .type
  | list xs => .ok (xs.any fun y => same y x)
  | tuple xs => .ok (xs.any fun y => same y x)
  | dict es => if x.hashable then .ok (Dict.has es x) else .error .type
  | _ => .error .type

end Patchbay.Value
