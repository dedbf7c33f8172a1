import Patchbay.Binary64
import Patchbay.Decimal.Numeral
import Patchbay.Text.CodeRanges
import Patchbay.Value.Basic

/-!
# Reading JSON

A recursive-descent reader from text to values. Beyond the standard it takes `NaN`, `Infinity` and
`-Infinity`; a number with a point or an exponent is a double and any other an exact integer; of two
members with one name the later value stands at the earlier place.

Contents:
* `Limits`: what a reader refuses beyond malformed text.
* `Refusal`: why a text is refused.
* `read`: the value of a text.
-/

namespace Patchbay.Json

open Patchbay.Text

/-- What a reader refuses beyond malformed text. -/
structure Limits where
  /-- deepest nesting of arrays and objects, if there is a bound -/
  depth : Option Nat
  /-- whether half of a surrogate pair may stand alone -/
  loneSurrogates : Bool

/-- Literals are read without a bound on nesting. -/
def Limits.literal : Limits := ⟨none, true⟩

/-- Documents nest at most two hundred levels deep. -/
def Limits.document : Limits := ⟨some 200, false⟩

/-- Why a text is refused. -/
inductive Refusal where
  | malformed
  | tooManyDigits
deriving DecidableEq

/-- Whether a character may stand between two tokens. -/
def isGap (c : Char) : Bool := c == ' ' || c == '\t' || c == '\n' || c == '\r'

/-- Drops what stands between two tokens. -/
def skipGap (cs : List Char) : List Char := cs.dropWhile isGap

/-! ## Strings -/

/-- A code unit from four hexadecimal digits. -/
def codeUnit? : List Char → Option (Nat × List Char)
  | a :: b :: c :: d :: rest =>
    if [a, b, c, d].all isHexDigit then some (hexNumber [a, b, c, d], rest) else none
  | _ => none

/-- The character of a one-letter escape. -/
def plainEscape? (c : Char) : Option Char :=
  match c with
  | '"' => some '"'
  | '\\' => some '\\'
  | '/' => some '/'
  | 'b' => some '\x08'
  | 'f' => some '\x0c'
  | 'n' => some '\n'
  | 'r' => some '\r'
  | 't' => some '\t'
  | _ => none

/-- The character an escape in hexadecimal stands for, with a second escape for the other half of a
surrogate pair. A half alone is the replacement character, where it is allowed. -/
def unicodeEscape? (l : Limits) (cs : List Char) : Option (Char × List Char) :=
  match codeUnit? cs with
  | none => none
  | some (hi, rest) =>
    let alone := if l.loneSurrogates then some (Char.ofNat 0xFFFD, rest) else none
    if 0xD800 ≤ hi && hi < 0xDC00 then
      match rest with
      | '\\' :: 'u' :: after =>
        match codeUnit? after with
        | some (lo, rest) =>
          if 0xDC00 ≤ lo && lo < 0xE000 then
            some (Char.ofNat (0x10000 + (hi - 0xD800) * 0x400 + (lo - 0xDC00)), rest)
          else alone
        | none => alone
      | _ => alone
    else if 0xDC00 ≤ hi && hi < 0xE000 then alone
    else some (Char.ofNat hi, rest)

/-- The rest of a string after its opening quote; `acc` holds the characters read, in reverse, and
`fuel` bounds their number. -/
def stringFrom (l : Limits) : Nat → List Char → List Char → Except Refusal (String × List Char)
  | 0, _, _ => .error .malformed
  | _ + 1, _, [] => .error .malformed
  | fuel + 1, acc, c :: rest =>
    if c == '"' then .ok (String.ofList acc.reverse, rest)
    else if c == '\\' then
      match rest with
      | [] => .error .malformed
      | e :: after =>
        if e == 'u' then
          match unicodeEscape? l after with
          | some (d, after) => stringFrom l fuel (d :: acc) after
          | none => .error .malformed
        else
          match plainEscape? e with
          | some d => stringFrom l fuel (d :: acc) after
          | none => .error .malformed
    else if c.toNat < 32 then .error .malformed
    else stringFrom l fuel (c :: acc) rest

/-! ## Numbers -/

/-- The digits after a point, when there is a point with digits after it. -/
def fractionOf (cs : List Char) : List Char × List Char :=
  match cs with
  | '.' :: rest =>
    let ds := rest.takeWhile Char.isDigit
    if ds.isEmpty then ([], cs) else (ds, rest.dropWhile Char.isDigit)
  | cs => ([], cs)

/-- The exponent, when there is a mark with digits after it. -/
def exponentOf (cs : List Char) : Option Int × List Char :=
  match cs with
  | e :: rest =>
    if e == 'e' || e == 'E' then
      let (negative, after) := Decimal.splitSign rest
      let ds := after.takeWhile Char.isDigit
      if ds.isEmpty then (none, cs)
      else
        let n : Int := Decimal.natOfDigits ds
        (some (if negative then -n else n), after.dropWhile Char.isDigit)
    else (none, cs)
  | [] => (none, [])

/-- A number without its sign. -/
def unsignedFrom (negative : Bool) (cs : List Char) : Except Refusal (Value × List Char) :=
  let whole := cs.takeWhile Char.isDigit
  let rest := cs.dropWhile Char.isDigit
  if whole.isEmpty then .error .malformed
  else
    let (whole, rest) := match whole with
      | '0' :: more => (['0'], more ++ rest)
      | _ => (whole, rest)
    let (fraction, rest) := fractionOf rest
    let (exponent, rest) := exponentOf rest
    if fraction.isEmpty && exponent.isNone then
      if whole.length > Decimal.maxIntDigits then .error .tooManyDigits
      else
        let n : Int := Decimal.natOfDigits whole
        .ok (.int (if negative then -n else n), rest)
    else
      let x := Binary64.ofDecimal (Decimal.natOfDigits (whole ++ fraction))
        (exponent.getD 0 - fraction.length)
      .ok (.float (Binary64.withSign negative x), rest)

/-- Drops a word from the start of a text. -/
def dropWord? (word : String) (cs : List Char) : Option (List Char) :=
  if word.toList.isPrefixOf cs then some (cs.drop word.length) else none

/-- A word that stands for a value. -/
def wordFrom (word : String) (v : Value) (cs : List Char) : Except Refusal (Value × List Char) :=
  match dropWord? word cs with
  | some rest => .ok (v, rest)
  | none => .error .malformed

/-! ## Values -/

mutual

/-- The value at the start of a text; `room` is the nesting left and `fuel` bounds the calls. -/
def valueFrom (l : Limits) : Nat → Option Nat → List Char → Except Refusal (Value × List Char)
  | 0, _, _ => .error .malformed
  | fuel + 1, room, cs =>
    match cs with
    | [] => .error .malformed
    | c :: rest =>
      if c == '"' then
        match stringFrom l (rest.length + 1) [] rest with
        | .ok (s, rest) => .ok (.str s, rest)
        | .error e => .error e
      else if c == '\x7b' then
        if room == some 0 then .error .malformed
        else membersFrom l fuel (room.map (· - 1)) [] true (skipGap rest)
      else if c == '[' then
        if room == some 0 then .error .malformed
        else itemsFrom l fuel (room.map (· - 1)) [] true (skipGap rest)
      else if c == 'n' then wordFrom "null" .null cs
      else if c == 't' then wordFrom "true" (.bool true) cs
      else if c == 'f' then wordFrom "false" (.bool false) cs
      else if c == 'N' then wordFrom "NaN" (.float Binary64.nan) cs
      else if c == 'I' then wordFrom "Infinity" (.float Binary64.infinity) cs
      else if c == '-' then
        if rest.head? == some 'I' then
          wordFrom "-Infinity" (.float (Binary64.withSign true Binary64.infinity)) cs
        else unsignedFrom true rest
      else unsignedFrom false cs

/-- The items of an array after its bracket or a comma; `first` tells whether the array may end
here. -/
def itemsFrom (l : Limits) :
    Nat → Option Nat → List Value → Bool → List Char → Except Refusal (Value × List Char)
  | 0, _, _, _, _ => .error .malformed
  | fuel + 1, room, acc, first, cs =>
    if first && cs.head? == some ']' then .ok (.list [], cs.drop 1)
    else
      match valueFrom l fuel room cs with
      | .error e => .error e
      | .ok (v, rest) =>
        match skipGap rest with
        | ',' :: more => itemsFrom l fuel room (v :: acc) false (skipGap more)
        | ']' :: more => .ok (.list (v :: acc).reverse, more)
        | _ => .error .malformed

/-- The members of an object after its brace or a comma; `first` tells whether the object may end
here. -/
def membersFrom (l : Limits) :
    Nat → Option Nat → Named → Bool → List Char → Except Refusal (Value × List Char)
  | 0, _, _, _, _ => .error .malformed
  | fuel + 1, room, acc, first, cs =>
    if first && cs.head? == some '\x7d' then .ok (.dict [], cs.drop 1)
    else
      match cs with
      | '"' :: rest =>
        match stringFrom l (rest.length + 1) [] rest with
        | .error e => .error e
        | .ok (name, rest) =>
          match skipGap rest with
          | ':' :: rest =>
            match valueFrom l fuel room (skipGap rest) with
            | .error e => .error e
            | .ok (v, rest) =>
              let acc := acc.set name v
              match skipGap rest with
              | ',' :: more => membersFrom l fuel room acc false (skipGap more)
              | '\x7d' :: more => .ok (acc.toValue, more)
              | _ => .error .malformed
          | _ => .error .malformed
      | _ => .error .malformed

end

/-- The value of a whole text. -/
def read (l : Limits) (text : String) : Except Refusal Value :=
  let cs := skipGap text.toList
  match valueFrom l (2 * cs.length + 2) l.depth cs with
  | .error e => .error e
  | .ok (v, rest) => if (skipGap rest).isEmpty then .ok v else .error .malformed

end Patchbay.Json
