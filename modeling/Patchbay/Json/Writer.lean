import Patchbay.Fault
import Patchbay.Text.Quoted
import Patchbay.Value.Show

/-!
# Writing JSON

Two formats. The one-line format writes a literal: a blank after commas and colons, and ASCII
characters only. The indented format writes a document: two blanks a level, every character beyond
the controls as itself, and `null` for a double that JSON has no number for.

Contents:
* `write`: the one-line format, a fault on values that have no JSON form.
* `writeIndented`: the indented format.
-/

namespace Patchbay.Json

open Patchbay.Decimal

/-! ## Strings -/

/-- The two-character escape of a character, where it has one. -/
def shortEscape? (c : Char) : Option String :=
  match c with
  | '"' => some "\\\""
  | '\\' => some "\\\\"
  | '\n' => some "\\n"
  | '\r' => some "\\r"
  | '\t' => some "\\t"
  | '\x08' => some "\\b"
  | '\x0c' => some "\\f"
  | _ => none

/-- A code unit as an escape. -/
def unitEscape (n : Nat) : String := "\\u" ++ Text.hexText 4 n

/-- A character in ASCII; one beyond the first plane is written as two code units. -/
def asciiChar (c : Char) : String :=
  match shortEscape? c with
  | some e => e
  | none =>
    let n := c.toNat
    if 32 ≤ n && n < 127 then c.toString
    else if n < 0x10000 then unitEscape n
    else unitEscape (0xD800 + (n - 0x10000) / 0x400) ++ unitEscape (0xDC00 + (n - 0x10000) % 0x400)

/-- A string in ASCII. -/
def asciiString (s : String) : String := "\"" ++ String.join (s.toList.map asciiChar) ++ "\""

/-- A character as itself unless it is a control. -/
def openChar (c : Char) : String :=
  match shortEscape? c with
  | some e => e
  | none => if c.toNat < 32 then unitEscape c.toNat else c.toString

/-- A string with every character but controls as itself. -/
def openString (s : String) : String := "\"" ++ String.join (s.toList.map openChar) ++ "\""

/-! ## One line -/

/-- Doubles in the one-line format; those that are no numbers are written as words. -/
def literalLayout : Layout :=
  { Value.display with notANumber := "NaN", infinite := "Infinity" }

/-- The name a key becomes: text, numbers, truth values and nothing have one. -/
def memberName : Value → Except Fault String
  | .str s => .ok s
  | .bool b => .ok (if b then "true" else "false")
  | .null => .ok "null"
  | .int n => Value.intText n
  | .float x => .ok (literalLayout.render x)
  | _ => .error .type

mutual

/-- A value in one line. -/
def write : Value → Except Fault String
  | .null => .ok "null"
  | .bool b => .ok (if b then "true" else "false")
  | .int n => Value.intText n
  | .float x => .ok (literalLayout.render x)
  | .complex _ _ => .error .type
  | .str s => .ok (asciiString s)
  | .list xs => do return "[" ++ String.intercalate ", " (← writeList xs) ++ "]"
  | .tuple xs => do return "[" ++ String.intercalate ", " (← writeList xs) ++ "]"
  | .dict es => do return "\x7b" ++ String.intercalate ", " (← writeEntries es) ++ "\x7d"

/-- The items of an array. -/
def writeList : List Value → Except Fault (List String)
  | [] => .ok []
  | x :: xs => do
    let s ← write x
    return s :: (← writeList xs)

/-- The members of an object. -/
def writeEntries : List (Value × Value) → Except Fault (List String)
  | [] => .ok []
  | e :: es => do
    let s ← writeEntry e
    return s :: (← writeEntries es)

/-- One member. -/
def writeEntry : Value × Value → Except Fault String
  | (k, v) => do
    let name ← memberName k
    return asciiString name ++ ": " ++ (← write v)

end

/-! ## Indented -/

/-- Doubles in documents: positional from 1e-5 to below 1e16. -/
def documentLayout : Layout where
  plainFrom := -5
  plainBelow := 16
  exponentWidth := 1
  pointZero := true
  notANumber := "null"
  infinite := "null"

/-- A double in a document; infinities and NaN are `null`. -/
def documentFloat (x : Float) : String :=
  if x.isNaN || x.isInf then "null" else documentLayout.render x

/-- A line break and the indentation of a level. -/
def newline (level : Nat) : String := "\n" ++ String.ofList (List.replicate (2 * level) ' ')

/-- Parts between brackets, each on a line of its own. -/
def block (openMark closeMark : String) (level : Nat) (parts : List String) : String :=
  if parts.isEmpty then openMark ++ closeMark
  else openMark ++ newline (level + 1) ++ String.intercalate ("," ++ newline (level + 1)) parts
    ++ newline level ++ closeMark

mutual

/-- The member name a key becomes in a document; a tuple's parts are joined by commas. -/
def documentKey : Value → String
  | .str s => s
  | .null => "None"
  | .bool b => if b then "true" else "false"
  | .int n => toString n
  | .float x => Value.floatText x
  | .tuple xs => String.intercalate "," (documentKeys xs)
  | _ => ""

/-- The parts of a tuple key. -/
def documentKeys : List Value → List String
  | [] => []
  | x :: xs => documentKey x :: documentKeys xs

end

mutual

/-- A value at a level of indentation. -/
def writeAt (level : Nat) : Value → String
  | .null => "null"
  | .bool b => if b then "true" else "false"
  | .int n => toString n
  | .float x => documentFloat x
  | .complex re im => openString (Value.complexText re im)
  | .str s => openString s
  | .list xs => block "[" "]" level (writeListAt (level + 1) xs)
  | .tuple xs => block "[" "]" level (writeListAt (level + 1) xs)
  | .dict es => block "\x7b" "\x7d" level (writeEntriesAt (level + 1) es)

/-- The items of an array at a level. -/
def writeListAt (level : Nat) : List Value → List String
  | [] => []
  | x :: xs => writeAt level x :: writeListAt level xs

/-- The members of an object at a level. -/
def writeEntriesAt (level : Nat) : List (Value × Value) → List String
  | [] => []
  | e :: es => writeEntryAt level e :: writeEntriesAt level es

/-- One member at a level. -/
def writeEntryAt (level : Nat) : Value × Value → String
  | (k, v) => openString (documentKey k) ++ ": " ++ writeAt level v

end

/-- A value in the indented format. -/
def writeIndented (v : Value) : String := writeAt 0 v

end Patchbay.Json
