import Patchbay.Expr.Token

/-!
# Quoted texts in expressions

What a quoted text stands for once its escapes are read. Texts that stand side by side are one text;
bytes and text do not mix. A text with the letter `f` has expressions between braces; here it is
only cut into pieces, and the parser reads the expressions.

Contents:
* `decodeText?`, `decodeBytes?`: escapes.
* `Piece`, `pieces?`: the pieces of a text with expressions.
-/

namespace Patchbay.Expr

open Patchbay.Text

/-- Whether a character is an octal digit. -/
def isOctal (c : Char) : Bool := '0' ≤ c && c ≤ '7'

/-- Up to three octal digits: their value and the rest. -/
def octalRun (cs : List Char) : Nat × List Char :=
  let ds := (cs.take 3).takeWhile isOctal
  (ds.foldl (fun n c => 8 * n + (c.toNat - '0'.toNat)) 0, cs.drop ds.length)

/-- Exactly `count` hexadecimal digits: their value and the rest. -/
def hexRun? (count : Nat) (cs : List Char) : Option (Nat × List Char) :=
  let ds := cs.take count
  if ds.length == count && ds.all isHexDigit then some (hexNumber ds, cs.drop count) else none

/-- The code of an escape of one letter. -/
def letterEscape? (c : Char) : Option Nat :=
  match c with
  | '\\' => some 92
  | '\'' => some 39
  | '"' => some 34
  | 'a' => some 7
  | 'b' => some 8
  | 'f' => some 12
  | 'n' => some 10
  | 'r' => some 13
  | 't' => some 9
  | 'v' => some 11
  | _ => none

/-- The character with a code, if the code is in range; a surrogate has no character of its own. -/
def charOf? (n : Nat) : Option Char :=
  if n ≥ 0x110000 then none
  else if 0xD800 ≤ n && n < 0xE000 then some (Char.ofNat 0xFFFD)
  else some (Char.ofNat n)

/-- Reads the escapes of a text; nothing when one is malformed. An unknown escape stays as written.
`fuel` is the length of the text. -/
def decodeFrom? : Nat → List Char → Option (List Char)
  | 0, _ => some []
  | _ + 1, [] => some []
  | fuel + 1, '\\' :: c :: rest =>
    let escaped (r : Option (Nat × List Char)) : Option (List Char) := do
      let (n, rest) ← r
      let d ← charOf? n
      return d :: (← decodeFrom? fuel rest)
    if c == '\n' then decodeFrom? fuel rest
    else if isOctal c then escaped (some (octalRun (c :: rest)))
    else if c == 'x' then escaped (hexRun? 2 rest)
    else if c == 'u' then escaped (hexRun? 4 rest)
    else if c == 'U' then escaped (hexRun? 8 rest)
    else if c == 'N' then none
    else match letterEscape? c with
      | some n => escaped (some (n, rest))
      | none => (decodeFrom? fuel rest).map fun r => '\\' :: c :: r
  | fuel + 1, c :: rest => (decodeFrom? fuel rest).map (c :: ·)

/-- Reads the escapes of a text. -/
def decodeText? (raw : Bool) (cs : List Char) : Option (List Char) :=
  if raw then some cs else decodeFrom? (cs.length + 1) cs

/-- Reads the escapes of bytes. -/
def decodeBytesFrom? : Nat → List Char → Option (List Nat)
  | 0, _ => some []
  | _ + 1, [] => some []
  | fuel + 1, '\\' :: c :: rest =>
    let escaped (r : Option (Nat × List Char)) : Option (List Nat) := do
      let (n, rest) ← r
      return n % 256 :: (← decodeBytesFrom? fuel rest)
    if c == '\n' then decodeBytesFrom? fuel rest
    else if isOctal c then escaped (some (octalRun (c :: rest)))
    else if c == 'x' then escaped (hexRun? 2 rest)
    else match letterEscape? c with
      | some n => escaped (some (n, rest))
      | none => (decodeBytesFrom? fuel rest).map fun r => 92 :: c.toNat :: r
  | fuel + 1, c :: rest => (decodeBytesFrom? fuel rest).map (c.toNat :: ·)

/-- The codes of bytes; only ASCII characters may be written in them. -/
def decodeBytes? (q : Quoted) : Option (List Nat) :=
  if q.body.any fun c => c.toNat ≥ 128 then none
  else if q.has 'r' then some (q.body.map Char.toNat)
  else decodeBytesFrom? (q.body.length + 1) q.body

/-! ## Texts with expressions -/

/-- A piece of a text with expressions: plain characters, or an expression with what follows it. -/
inductive Piece where
  | chars (cs : List Char)
  /-- source text, whether an equals sign follows it, conversion letter, and format -/
  | hole (source : List Char) (shown : Option (List Char)) (conversion : Option Char)
      (format : Option (List Char))

/-- Where the scan of an expression in braces stands: the quote it is inside of, and the brackets
still open. -/
structure HoleScan where
  quote : Option (List Char) := none
  awaited : List Char := []

/-- The bracket that closes another. -/
def closerOf? (c : Char) : Option Char :=
  match c with
  | '(' => some ')'
  | '[' => some ']'
  | '\x7b' => some '\x7d'
  | _ => none

/-- Whether an operator that ends in or starts with an equals sign stands here, so that the expression
goes on. -/
def comparisonHere : List Char → Bool
  | '=' :: '=' :: _ => true
  | '!' :: '=' :: _ => true
  | '<' :: '=' :: _ => true
  | '>' :: '=' :: _ => true
  | _ => false

/-- The source of an expression in braces, up to the mark that ends it. -/
def holeSource? : Nat → HoleScan → List Char → List Char → Option (List Char × List Char)
  | 0, _, _, _ => none
  | _ + 1, _, _, [] => none
  | fuel + 1, s, acc, c :: rest =>
    if c == '\\' then none
    else match s.quote with
      | some q =>
        if q.isPrefixOf (c :: rest) then
          holeSource? fuel { s with quote := none } (q ++ acc) ((c :: rest).drop q.length)
        else holeSource? fuel s (c :: acc) rest
      | none =>
        if c == '\'' || c == '"' then
          let q := if [c, c, c].isPrefixOf (c :: rest) then [c, c, c] else [c]
          holeSource? fuel { s with quote := some q } (q ++ acc) ((c :: rest).drop q.length)
        else if c == '#' then none
        else match closerOf? c with
          | some d => holeSource? fuel { s with awaited := d :: s.awaited } (c :: acc) rest
          | none =>
            match s.awaited with
            | d :: more =>
              if c == ')' || c == ']' || c == '\x7d' then
                if c == d then holeSource? fuel { s with awaited := more } (c :: acc) rest else none
              else holeSource? fuel s (c :: acc) rest
            | [] =>
              if comparisonHere (c :: rest) then
                holeSource? fuel s ('=' :: c :: acc) (rest.drop 1)
              else if c == '!' || c == ':' || c == '\x7d' || c == '=' then
                some (acc.reverse, c :: rest)
              else if c == ')' || c == ']' then none
              else holeSource? fuel s (c :: acc) rest

/-- The format after a colon, up to the brace that closes the expression; braces inside it nest. -/
def holeFormat? (depth : Nat) (acc : List Char) : List Char → Option (List Char × List Char)
  | [] => none
  | '\x7b' :: rest => holeFormat? (depth + 1) ('\x7b' :: acc) rest
  | '\x7d' :: rest =>
    if depth == 0 then some (acc.reverse, rest) else holeFormat? (depth - 1) ('\x7d' :: acc) rest
  | c :: rest => holeFormat? depth (c :: acc) rest

/-- An expression in braces after the opening one. -/
def hole? (cs : List Char) : Option (Piece × List Char) := do
  let (source, rest) ← holeSource? (cs.length + 1) {} [] cs
  if source.all fun c => c == ' ' || (9 ≤ c.toNat && c.toNat ≤ 13) then none
  let (shown, rest) := match rest with
    | '=' :: more =>
      let blanks := more.takeWhile fun c => c == ' ' || (9 ≤ c.toNat && c.toNat ≤ 13)
      (some (source ++ '=' :: blanks), more.drop blanks.length)
    | rest => (none, rest)
  let (conversion, rest) ← match rest with
    | '!' :: c :: more =>
      if c == 's' || c == 'r' || c == 'a' then some (some c, more) else none
    | ['!'] => none
    | rest => some (none, rest)
  match rest with
  | '\x7d' :: more => return (.hole source shown conversion none, more)
  | ':' :: more =>
    let (format, more) ← holeFormat? 0 [] more
    return (.hole source shown conversion (some format), more)
  | _ => none

/-- The pieces of a text with expressions. In a format, braces do not double. -/
def pieces? (doubling : Bool) : Nat → List Char → List Char → Option (List Piece)
  | 0, _, _ => none
  | _ + 1, acc, [] => some (if acc.isEmpty then [] else [.chars acc.reverse])
  | fuel + 1, acc, '\x7b' :: rest =>
    if doubling && rest.head? == some '\x7b' then
      pieces? doubling fuel ('\x7b' :: acc) (rest.drop 1)
    else do
      let (h, rest) ← hole? rest
      let more ← pieces? doubling fuel [] rest
      return (if acc.isEmpty then [] else [.chars acc.reverse]) ++ h :: more
  | fuel + 1, acc, '\x7d' :: rest =>
    if doubling && rest.head? == some '\x7d' then
      pieces? doubling fuel ('\x7d' :: acc) (rest.drop 1)
    else none
  | fuel + 1, acc, c :: rest => pieces? doubling fuel (c :: acc) rest

end Patchbay.Expr
