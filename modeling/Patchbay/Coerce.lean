import Patchbay.Json.Reader
import Patchbay.Json.Writer
import Patchbay.Port
import Patchbay.Text.Casing

/-!
# Coercion of literals

Literals typed into an editor arrive as text. Coercion gives a value the representation that a port
type expects: `"3"` becomes `3` on a number port and `"false"` becomes false on a boolean port. A
value that cannot be converted stays as it is. Converting to text may be a fault: an integer beyond
the digit limit has no text, and a dictionary whose keys have no JSON name has none either.

Contents:
* `coerce`: a value in the representation of a type.
-/

namespace Patchbay

/-- Words that stand for true. -/
def trueWords : List String := ["true", "yes", "on", "1"]

/-- Words that stand for false. -/
def falseWords : List String := ["false", "no", "off", "0", ""]

/-- The number a value is or spells. -/
def coerceNumber : Value → Value
  | .bool b => .int (if b then 1 else 0)
  | .str s =>
    let text := Text.strip s
    match Decimal.intOfText? 10 text with
    | some n => .int n
    | none => match Decimal.floatOfText? text with
      | some x => .float x
      | none => .str s
  | v => v

/-- The truth value a value is or spells. -/
def coerceBoolean : Value → Value
  | .int n => .bool (n != 0)
  | .float x => .bool (x != 0.0)
  | .str s =>
    let word := Text.lower (Text.strip s)
    if trueWords.contains word then .bool true
    else if falseWords.contains word then .bool false
    else .str s
  | v => v

/-- The text of a value: JSON for lists and dictionaries. -/
def coerceString : Value → Except Fault Value
  | .null => .ok (.str "")
  | .bool b => .ok (.str (if b then "true" else "false"))
  | .list xs => return .str (← Json.write (.list xs))
  | .dict es => return .str (← Json.write (.dict es))
  | v => return .str (← v.toText)

/-- The dictionary a value is or spells. -/
def coerceObject : Value → Value
  | .str s => match Json.read .literal s with
    | .ok (.dict es) => .dict es
    | _ => .str s
  | v => v

/-- The list a value is or spells. -/
def coerceArray : Value → Value
  | .str s => match Json.read .literal s with
    | .ok (.list xs) => .list xs
    | _ => .str s
  | .tuple xs => .list xs
  | v => v

/-- A value in the representation of a type, or the value itself when it has none. -/
def coerce (v : Value) : ValueType → Except Fault Value
  | .any => .ok v
  | .exec => .ok v
  | .number => .ok (coerceNumber v)
  | .boolean => .ok (coerceBoolean v)
  | .string => coerceString v
  | .object => .ok (coerceObject v)
  | .array => .ok (coerceArray v)

end Patchbay
