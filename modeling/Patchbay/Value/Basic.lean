import Patchbay.Binary64

/-!
# Values

The values that literals, variables and outputs hold. Nodes are wired at run time, so values carry
their own type: nothing, truth values, unbounded integers, doubles, text, lists, tuples and
dictionaries in insertion order. Complex numbers only arise as powers of negative numbers.

Contents:
* `Value`, its `typeName` and `truthy`.
* `Value.same`: equality, under which a whole double equals the integer and truth values count as
  numbers.
* `Value.hashable`: whether a value may be a key.
* `Dict`: dictionaries as lists of entries, with `Dict.get?`, `Dict.set`, `Dict.ofEntries`.
-/

namespace Patchbay

/-- A dynamically typed value. -/
inductive Value where
  | null
  | bool (b : Bool)
  | int (n : Int)
  | float (x : Float)
  | complex (re im : Float)
  | str (s : String)
  | list (items : List Value)
  | tuple (items : List Value)
  | dict (entries : List (Value × Value))
deriving Inhabited

/-- The entries of a dictionary, in insertion order. -/
abbrev Dict := List (Value × Value)

/-- Values under names, in insertion order. -/
abbrev Named := List (String × Value)

namespace Value

/-- The name of a value's type in messages. -/
def typeName : Value → String
  | null => "NoneType"
  | bool _ => "bool"
  | int _ => "int"
  | float _ => "float"
  | complex _ _ => "complex"
  | str _ => "str"
  | list _ => "list"
  | tuple _ => "tuple"
  | dict _ => "dict"

/-- Whether a value counts as true. -/
def truthy : Value → Bool
  | null => false
  | bool b => b
  | int n => n != 0
  | float x => x != 0.0
  | complex re im => re != 0.0 || im != 0.0
  | str s => !s.isEmpty
  | list xs => !xs.isEmpty
  | tuple xs => !xs.isEmpty
  | dict es => !es.isEmpty

/-- The integer that an integer or a truth value stands for. -/
def asInt? : Value → Option Int
  | bool b => some (if b then 1 else 0)
  | int n => some n
  | _ => none

/-! ## Equality -/

/-- Equality of two numbers, none of them complex. -/
def sameNumber : Value → Value → Bool
  | float x, float y => x == y
  | float x, v => match v.asInt? with
    | some n => Binary64.compareInt x n == some .eq
    | none => false
  | u, float y => match u.asInt? with
    | some n => Binary64.compareInt y n == some .eq
    | none => false
  | u, v => match u.asInt?, v.asInt? with
    | some m, some n => m == n
    | _, _ => false

/-- Equality of a complex number with a value. -/
def sameComplex (re im : Float) : Value → Bool
  | complex re' im' => re == re' && im == im'
  | v => im == 0.0 && sameNumber (float re) v

mutual

/-- Equality of values. -/
def same : Value → Value → Bool
  | null, v => match v with
    | null => true
    | _ => false
  | str s, v => match v with
    | str t => s == t
    | _ => false
  | list xs, v => match v with
    | list ys => sameList xs ys
    | _ => false
  | tuple xs, v => match v with
    | tuple ys => sameList xs ys
    | _ => false
  | dict es, v => match v with
    | dict fs => es.length == fs.length && sameEntries es fs
    | _ => false
  | complex re im, v => sameComplex re im v
  | bool b, v => match v with
    | complex re im => sameComplex re im (bool b)
    | v => sameNumber (bool b) v
  | int n, v => match v with
    | complex re im => sameComplex re im (int n)
    | v => sameNumber (int n) v
  | float x, v => match v with
    | complex re im => sameComplex re im (float x)
    | v => sameNumber (float x) v

/-- Equality of sequences, item by item. -/
def sameList : List Value → List Value → Bool
  | [], ys => ys.isEmpty
  | x :: xs, ys => match ys with
    | [] => false
    | y :: ys => same x y && sameList xs ys

/-- Whether each entry has an equal one in another dictionary, wherever it stands there. -/
def sameEntries : List (Value × Value) → List (Value × Value) → Bool
  | [], _ => true
  | e :: es, fs => sameEntry e fs && sameEntries es fs

/-- Whether an entry's key has an equal value in another dictionary. -/
def sameEntry : Value × Value → List (Value × Value) → Bool
  | (k, v), fs => match fs.find? fun f => same k f.1 with
    | some f => same v f.2
    | none => false

end

/-! ## Keys -/

mutual

/-- Whether a value may be a key: lists and dictionaries may not, at any depth of tuples. -/
def hashable : Value → Bool
  | list _ => false
  | dict _ => false
  | tuple xs => hashableList xs
  | _ => true

/-- Whether all items may be part of a key. -/
def hashableList : List Value → Bool
  | [] => true
  | x :: xs => hashable x && hashableList xs

end

/-- A list of strings as a value. -/
def ofStrings (xs : List String) : Value := list (xs.map str)

end Value

/-! ## Dictionaries -/

namespace Dict

/-- The value under a key. -/
def get? (d : Dict) (k : Value) : Option Value := (d.find? fun e => Value.same k e.1).map Prod.snd

/-- Whether a key is present. -/
def has (d : Dict) (k : Value) : Bool := d.any fun e => Value.same k e.1

/-- Puts a value under a key. A key that is present stays as it is, in its place. -/
def set (d : Dict) (k v : Value) : Dict :=
  match d with
  | [] => [(k, v)]
  | e :: rest => if Value.same k e.1 then (e.1, v) :: rest else e :: set rest k v

/-- Puts all entries of another dictionary, one after another. -/
def update (d e : Dict) : Dict := e.foldl (fun acc (k, v) => acc.set k v) d

/-- Builds a dictionary entry by entry. -/
def ofEntries (es : List (Value × Value)) : Dict := update [] es

/-- A dictionary with text keys. -/
def ofNamed (xs : Named) : Dict := ofEntries (xs.map fun (k, v) => (.str k, v))

end Dict

/-! ## Named values -/

namespace Named

/-- The value under a name. -/
def get? (d : Named) (k : String) : Option Value := d.lookup k

/-- Whether a name is present. -/
def has (d : Named) (k : String) : Bool := d.any fun e => e.1 == k

/-- Puts a value under a name; a name that is present keeps its place. -/
def set (d : Named) (k : String) (v : Value) : Named :=
  match d with
  | [] => [(k, v)]
  | e :: rest => if e.1 == k then (k, v) :: rest else e :: set rest k v

/-- Removes a name. -/
def erase (d : Named) (k : String) : Named := d.filter fun e => e.1 != k

/-- Puts all entries of another list of named values, one after another. -/
def update (d e : Named) : Named := e.foldl (fun acc (k, v) => acc.set k v) d

/-- Builds a list of named values entry by entry. -/
def ofEntries (es : Named) : Named := update [] es

/-- The names, in order. -/
def names (d : Named) : List String := d.map Prod.fst

/-- The dictionary with the same entries. -/
def toValue (d : Named) : Value := .dict (d.map fun (k, v) => (.str k, v))

end Named

end Patchbay
