import Patchbay.Decimal.Numeral
import Patchbay.Value.Show

/-!
# Tagged form of values

An interchange form in which every value is built from nothing, truth values, small integers, text,
lists and objects with text keys: what JSON cannot say is an object with one tag. The same form
carries values in and out.

Contents:
* `Value.tagged`: the tagged form of a value.
* `Value.untagged?`: the value of a tagged form.
-/

namespace Patchbay.Value

/-- An object with one member. -/
def tag (name : String) (v : Value) : Value := dict [(str name, v)]

/-- Integers up to this size need no tag. -/
def maxPlainInt : Int := twoTo 53

mutual

/-- The tagged form of a value. -/
def tagged : Value → Value
  | int n => if -maxPlainInt ≤ n && n ≤ maxPlainInt then int n else tag "$int" (str (toString n))
  | float x => tag "$float" (str (floatText x))
  | complex re im => tag "$complex" (list [str (floatText re), str (floatText im)])
  | list xs => list (taggedList xs)
  | tuple xs => tag "$tuple" (list (taggedList xs))
  | dict es => tag "$dict" (list (taggedEntries es))
  | null => null
  | bool b => bool b
  | str s => str s

/-- The tagged forms of items. -/
def taggedList : List Value → List Value
  | [] => []
  | x :: xs => tagged x :: taggedList xs

/-- The tagged forms of entries, each a list of key and value. -/
def taggedEntries : List (Value × Value) → List Value
  | [] => []
  | e :: es => taggedEntry e :: taggedEntries es

/-- The tagged form of an entry. -/
def taggedEntry : Value × Value → Value
  | (k, v) => list [tagged k, tagged v]

end

/-- The entry a list of two items stands for. -/
def entryOf? : Value → Option (Value × Value)
  | list [k, v] => some (k, v)
  | _ => none

/-- The integer that decimal digits of any number stand for. -/
def bigInt? (s : String) : Option Int :=
  let (negative, ds) := Decimal.splitSign s.toList
  if ds.isEmpty || !ds.all Char.isDigit then none
  else
    let n : Int := Decimal.natOfDigits ds
    some (if negative then -n else n)

/-- The value of a tag whose content is decoded already. -/
def ofTag? (name : String) (v : Value) : Option Value :=
  match name, v with
  | "$int", str s => (bigInt? s).map int
  | "$float", str s => (Decimal.floatOfText? s).map float
  | "$tuple", list xs => some (tuple xs)
  | "$dict", list es => (es.mapM entryOf?).map fun es => dict (Dict.ofEntries es)
  | _, _ => none

mutual

/-- The value of a tagged form. -/
def untagged? : Value → Option Value
  | list xs => (untaggedList? xs).map list
  | dict es => untaggedEntries? es
  | v => some v

/-- The values of tagged items. -/
def untaggedList? : List Value → Option (List Value)
  | [] => some []
  | x :: xs => do
    let y ← untagged? x
    let ys ← untaggedList? xs
    return y :: ys

/-- The value of an object with one tag. -/
def untaggedEntries? : List (Value × Value) → Option Value
  | [] => none
  | [e] => untaggedEntry? e
  | _ :: _ :: _ => none

/-- The value of one tag. -/
def untaggedEntry? : Value × Value → Option Value
  | (k, v) => do
    let w ← untagged? v
    match k with
    | str name => ofTag? name w
    | _ => none

end

end Patchbay.Value
