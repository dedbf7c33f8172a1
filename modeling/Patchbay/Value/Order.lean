import Patchbay.Value.Basic

/-!
# Order of values

Numbers are ordered among each other exactly, integers and doubles included; texts by code point;
lists with lists and tuples with tuples by their first difference. Nothing else has an order.

Contents:
* `Relation` and `Value.related?`: whether a relation holds, if the two values have an order.
* `Value.least?` / `Value.greatest?`: the first extreme item.
* `Value.sort?`: stable ascending sort.
-/

namespace Patchbay

/-- The four order relations. -/
inductive Relation where
  | lt
  | le
  | gt
  | ge
deriving DecidableEq

/-- Whether a relation holds between two things that compare as given. -/
def Relation.holds (r : Relation) (o : Ordering) : Bool :=
  match r with
  | .lt => o == .lt
  | .le => o != .gt
  | .gt => o == .gt
  | .ge => o != .lt

namespace Value

/-- How two doubles compare; nothing when one of them is NaN. -/
def compareFloat (x y : Float) : Option Ordering :=
  if x < y then some .lt else if x > y then some .gt else if x == y then some .eq else none

/-- How two numbers compare: no outer value when one is no number, no inner one for NaN. -/
def compareNumber (u v : Value) : Option (Option Ordering) :=
  match u, v with
  | float x, float y => some (compareFloat x y)
  | float x, v => v.asInt?.map fun n => Binary64.compareInt x n
  | u, float y => u.asInt?.map fun n => (Binary64.compareInt y n).map Ordering.swap
  | u, v => match u.asInt?, v.asInt? with
    | some m, some n => some (some (compare m n))
    | _, _ => none

/-- Whether a relation holds between two numbers; nothing when one is no number. -/
def relatedNumber? (r : Relation) (u v : Value) : Option Bool :=
  (compareNumber u v).map fun o => match o with
    | some o => r.holds o
    | none => false

mutual

/-- Whether a relation holds between two values; nothing when they have no order. -/
def related? (r : Relation) : Value → Value → Option Bool
  | str s, v => match v with
    | str t => some (r.holds (compare s t))
    | _ => none
  | list xs, v => match v with
    | list ys => relatedList? r xs ys
    | _ => none
  | tuple xs, v => match v with
    | tuple ys => relatedList? r xs ys
    | _ => none
  | null, _ => none
  | dict _, _ => none
  | complex _ _, _ => none
  | bool b, v => relatedNumber? r (bool b) v
  | int n, v => relatedNumber? r (int n) v
  | float x, v => relatedNumber? r (float x) v

/-- Sequences compare by their first difference, or by length when one starts with the other. -/
def relatedList? (r : Relation) : List Value → List Value → Option Bool
  | [], ys => some (r.holds (compare 0 ys.length))
  | x :: xs, ys => match ys with
    | [] => some (r.holds .gt)
    | y :: ys => if same x y then relatedList? r xs ys else related? r x y

end

/-- The first item that no later one is below (`r = lt`) or above (`r = gt`). -/
def extreme? (r : Relation) (best : Value) : List Value → Option Value
  | [] => some best
  | x :: xs => match related? r x best with
    | some true => extreme? r x xs
    | some false => extreme? r best xs
    | none => none

/-! ## Sorting -/

/-- Inserts an item into an ascending list by bisection, after those it is not below; `width`
bounds the part of the list from `lo` that is searched. -/
def insertionPlace? (sorted : Array Value) (x : Value) (lo width : Nat) : Option Nat :=
  if width = 0 then some lo
  else
    let half := width / 2
    match related? .lt x (sorted.getD (lo + half) .null) with
    | some true => insertionPlace? sorted x lo half
    | some false => insertionPlace? sorted x (lo + half + 1) (width - half - 1)
    | none => none
termination_by width
decreasing_by all_goals omega

/-- Inserts an item at its place in an ascending list. -/
def insertSorted? (sorted : List Value) (x : Value) : Option (List Value) :=
  (insertionPlace? sorted.toArray x 0 sorted.length).map fun i =>
    sorted.take i ++ x :: sorted.drop i

/-- The longest ascending start of a list after `prev`, in reverse, and the rest. -/
def ascendingRun? (prev : Value) (run : List Value) : List Value → Option (List Value × List Value)
  | [] => some (run, [])
  | x :: xs => match related? .lt x prev with
    | some false => ascendingRun? x (x :: run) xs
    | some true => some (run, x :: xs)
    | none => none

/-- The longest strictly descending start of a list after `prev`, in reverse, and the rest. -/
def descendingRun? (prev : Value) (run : List Value) : List Value → Option (List Value × List Value)
  | [] => some (run, [])
  | x :: xs => match related? .lt x prev with
    | some true => descendingRun? x (x :: run) xs
    | some false => some (run, x :: xs)
    | none => none

/-- The ordered start of a list, ascending, and the rest. -/
def firstRun? : List Value → Option (List Value × List Value)
  | [] => some ([], [])
  | [x] => some ([x], [])
  | x :: y :: rest => match related? .lt y x with
    | some true => descendingRun? y [y, x] rest
    | some false => (ascendingRun? y [y, x] rest).map fun (run, rest) => (run.reverse, rest)
    | none => none

/-- Stable ascending sort; nothing when two items that meet have no order. The ordered start of the
list is kept and the other items are inserted one after another. -/
def sort? (xs : List Value) : Option (List Value) :=
  match firstRun? xs with
  | none => none
  | some (run, rest) => rest.foldlM insertSorted? run

end Value

end Patchbay
