import Patchbay.Text.Casing
import Patchbay.Value.Sequence
import Patchbay.Value.Show

/-!
# Text templates with percent signs

The remainder operator on a text fills its placeholders. A placeholder is a percent sign, an
optional key in brackets, flags, a width, a precision and a letter for the conversion: `%5.2f`,
`%-8s`, `%(name)d`. A star takes the width or precision from the arguments.

Contents:
* `Placeholder` and `Placeholder.convert`: one placeholder and the text it stands for.
* `Value.fill`: the whole template.
* `Value.mod`: the remainder operator on all values.
-/

namespace Patchbay.Value

open Patchbay.Decimal

/-! ## Placeholders -/

/-- The flags of a placeholder. -/
structure PercentFlags where
  left : Bool := false
  plus : Bool := false
  blank : Bool := false
  alternate : Bool := false
  zero : Bool := false

/-- A placeholder without its key. -/
structure Placeholder where
  flags : PercentFlags := {}
  width : Nat := 0
  precision : Option Nat := none
  letter : Char

/-- The arguments of a template: the values still to use, and the dictionary that keys look into. -/
structure PercentArgs where
  rest : List Value
  /-- a single argument that is no tuple -/
  single : Bool
  keyed : Option Value

/-- Takes the next argument. -/
def PercentArgs.next (a : PercentArgs) : Except Fault (Value × PercentArgs) :=
  match a.rest with
  | v :: rest => .ok (v, { a with rest })
  | [] => .error .type

/-- Pads a text: the sign and the mark of a base come before filling zeros and after filling
blanks. -/
def padPlaceholder (p : Placeholder) (fill : Char) (sign mark body : String) : String :=
  let used := sign.length + mark.length + body.length
  let gap := p.width - used
  if p.flags.left then sign ++ mark ++ body ++ String.ofList (List.replicate gap ' ')
  else
    let filler := String.ofList (List.replicate gap fill)
    if fill == ' ' then filler ++ sign ++ mark ++ body else sign ++ mark ++ filler ++ body

/-- The sign in front of a number. -/
def signText (f : PercentFlags) (negative : Bool) : String :=
  if negative then "-" else if f.plus then "+" else if f.blank then " " else ""

/-- The character that fills a number up to its width. -/
def fillChar (f : PercentFlags) : Char := if f.zero then '0' else ' '

/-- The digits of an integer in the base of a conversion, and the mark of that base. -/
def integerDigits (letter : Char) (n : Nat) : Except Fault (String × String) :=
  match letter with
  | 'x' => .ok (String.ofList (Nat.toDigits 16 n), "0x")
  | 'X' => .ok (String.ofList ((Nat.toDigits 16 n).map Char.toUpper), "0X")
  | 'o' => .ok (String.ofList (Nat.toDigits 8 n), "0o")
  | _ => return (← intText n, "")

/-- The integer a conversion to digits reads: bases other than ten take integers only. -/
def integerArgument (letter : Char) (v : Value) : Except Fault Int :=
  match v with
  | float x =>
    if letter == 'x' || letter == 'X' || letter == 'o' then .error .type
    else match Binary64.decode x with
      | .nan => .error .value
      | .infinite _ => .error .overflow
      | .finite f => .ok f.truncInt
  | v => match v.asInt? with
    | some n => .ok n
    | none => .error .type

/-- An integer conversion. -/
def convertInteger (p : Placeholder) (v : Value) : Except Fault String := do
  let n ← integerArgument p.letter v
  let (digits, mark) ← integerDigits p.letter n.natAbs
  let digits := padZeros (p.precision.getD 0) digits
  return padPlaceholder p (fillChar p.flags) (signText p.flags (n < 0))
    (if p.flags.alternate then mark else "") digits

/-- The double a conversion to decimal notation reads. -/
def floatArgument (v : Value) : Except Fault Float :=
  match v with
  | float x => .ok x
  | v => match v.asInt? with
    | some n => floatOfInt n
    | none => .error .type

/-- The magnitude of a finite double in the notation of a letter. -/
def magnitudeText (p : Placeholder) (x : Binary64.Finite) : String :=
  let precision := p.precision.getD 6
  let alternate := p.flags.alternate
  match p.letter.toLower with
  | 'e' => scientific precision alternate x
  | 'f' => fixed precision alternate x
  | _ => general precision alternate x

/-- A conversion to decimal notation. -/
def convertFloat (p : Placeholder) (v : Value) : Except Fault String := do
  let x ← floatArgument v
  let (negative, body) := match Binary64.decode x with
    | .nan => (false, "nan")
    | .infinite negative => (negative, "inf")
    | .finite f => (f.negative, magnitudeText p f)
  let body := if p.letter.isUpper then String.ofList (body.toList.map Char.toUpper) else body
  return padPlaceholder p (fillChar p.flags) (signText p.flags negative) "" body

/-- A quoted form with ASCII characters only. -/
def asciiText (s : String) : String :=
  String.join (s.toList.map fun c =>
    if c.toNat < 128 then c.toString
    else if c.toNat < 0x100 then "\\x" ++ Text.hexText 2 c.toNat
    else if c.toNat < 0x10000 then "\\u" ++ Text.hexText 4 c.toNat
    else "\\U" ++ Text.hexText 8 c.toNat)

/-- A conversion to text, cut at the precision. -/
def convertText (p : Placeholder) (s : String) : String :=
  let s := match p.precision with
    | some n => String.ofList (s.toList.take n)
    | none => s
  padPlaceholder p ' ' "" "" s

/-- A conversion to one character, from a text of one or a code point. -/
def convertChar (p : Placeholder) (v : Value) : Except Fault String :=
  match v with
  | str s => if s.length == 1 then .ok (padPlaceholder p ' ' "" "" s) else .error .type
  | v => match v.asInt? with
    | some n =>
      if 0 ≤ n && n < 0x110000 then
        .ok (padPlaceholder p ' ' "" "" (Char.ofNat n.toNat).toString)
      else .error .overflow
    | none => .error .type

/-- The text a placeholder stands for. -/
def Placeholder.convert (p : Placeholder) (v : Value) : Except Fault String :=
  if "diuoxX".toList.contains p.letter then convertInteger p v
  else if "eEfFgG".toList.contains p.letter then convertFloat p v
  else match p.letter with
    | 's' => return convertText p (← v.toText)
    | 'r' => return convertText p (← v.repr)
    | 'a' => return convertText p (asciiText (← v.repr))
    | 'c' => convertChar p v
    | _ => .error .value

/-! ## Templates -/

/-- The flags at the start of a text. -/
def readFlags (f : PercentFlags) : List Char → PercentFlags × List Char
  | '-' :: cs => readFlags { f with left := true } cs
  | '+' :: cs => readFlags { f with plus := true } cs
  | ' ' :: cs => readFlags { f with blank := true } cs
  | '#' :: cs => readFlags { f with alternate := true } cs
  | '0' :: cs => readFlags { f with zero := true } cs
  | cs => (f, cs)

/-- A key between brackets, which may nest: the key and what follows the closing bracket. -/
def readKey (depth : Nat) (key : List Char) : List Char → Option (List Char × List Char)
  | [] => none
  | ')' :: cs =>
    if depth == 0 then some (key.reverse, cs) else readKey (depth - 1) (')' :: key) cs
  | '(' :: cs => readKey (depth + 1) ('(' :: key) cs
  | c :: cs => readKey depth (c :: key) cs

/-- A width or precision: a star, digits, or nothing. A star takes an integer argument. -/
def readCount (a : PercentArgs) (cs : List Char) :
    Except Fault (Option Int × PercentArgs × List Char) :=
  match cs with
  | '*' :: rest => do
    let (v, a) ← a.next
    match v.asInt? with
    | some n => return (some n, a, rest)
    | none => .error .type
  | cs =>
    let ds := cs.takeWhile Char.isDigit
    if ds.isEmpty then .ok (none, a, cs)
    else
      let n := natOfDigits ds
      if n > twoTo 31 - 1 then .error .value
      else .ok (some (n : Int), a, cs.dropWhile Char.isDigit)

/-- The arguments that a placeholder takes, after its key if it has one. -/
def readSubject (a : PercentArgs) (cs : List Char) : Except Fault (PercentArgs × List Char) :=
  match cs with
  | '(' :: rest => match a.keyed with
    | none => .error .type
    | some d => match readKey 0 [] rest with
      | none => .error .value
      | some (key, rest) => do
        let v ← d.item (str (String.ofList key))
        return ({ a with rest := [v], single := true }, rest)
  | cs => .ok (a, cs)

/-- The precision of a placeholder, if it has one. -/
def readPrecision (a : PercentArgs) (cs : List Char) :
    Except Fault (Option Nat × PercentArgs × List Char) :=
  match cs with
  | '.' :: rest => do
    let (p, a, rest) ← readCount a rest
    return (some (p.getD 0).toNat, a, rest)
  | cs => .ok (none, a, cs)

/-- A placeholder after its percent sign: its text, the arguments left and the rest. -/
def readPlaceholder (a : PercentArgs) (cs : List Char) :
    Except Fault (String × PercentArgs × List Char) := do
  let (a, cs) ← readSubject a cs
  let (flags, cs) := readFlags {} cs
  let (width, a, cs) ← readCount a cs
  let flags := if width.getD 0 < 0 then { flags with left := true } else flags
  let (precision, a, cs) ← readPrecision a cs
  let cs := match cs with
    | c :: rest => if c == 'h' || c == 'l' || c == 'L' then rest else c :: rest
    | [] => []
  match cs with
  | [] => .error .value
  | '%' :: rest => return ("%", a, rest)
  | letter :: rest => do
    let (v, a) ← a.next
    let p : Placeholder := { flags, width := (width.getD 0).natAbs, precision, letter }
    return (← p.convert v, a, rest)

/-- Fills the placeholders of a template from left to right; `fuel` is the length of the text. -/
def fillFrom : Nat → PercentArgs → List Char → Except Fault (String × PercentArgs)
  | 0, a, _ => .ok ("", a)
  | _, a, [] => .ok ("", a)
  | fuel + 1, a, '%' :: cs => do
    let (s, a, rest) ← readPlaceholder a cs
    let (t, a) ← fillFrom fuel a rest
    return (s ++ t, a)
  | fuel + 1, a, c :: cs => do
    let (t, a) ← fillFrom fuel a cs
    return (c.toString ++ t, a)

/-- The arguments that a value gives a template. A tuple gives its items; any other value is the only
one, and a list or dictionary is one that keys may look into. -/
def percentArgs : Value → PercentArgs
  | tuple xs => ⟨xs, false, none⟩
  | list xs => ⟨[list xs], true, some (list xs)⟩
  | dict es => ⟨[dict es], true, some (dict es)⟩
  | v => ⟨[v], true, none⟩

/-- The template with its placeholders filled. No argument may be left over, but a list or dictionary
may stay unused. -/
def fill (template : String) (v : Value) : Except Fault Value := do
  let args := percentArgs v
  let (s, rest) ← fillFrom (template.length + 1) args template.toList
  if rest.rest.isEmpty || args.keyed.isSome then return str s else .error .type

/-- The remainder of two numbers, or a filled template. -/
def mod (u v : Value) : Except Fault Value :=
  match u with
  | str s => fill s v
  | u => modNumber u v

end Patchbay.Value
