import Patchbay.Decimal.Numeral
import Patchbay.Expr.Tree
import Patchbay.Text.Identifier

/-!
# Tokens of expression text

Text is cut into names, numbers, quoted texts, operators and line ends. Line ends inside brackets
count as blanks. Brackets have to match and nest at most two hundred levels deep; a number must not
run into a name unless the name starts with a word that may follow a number.

Contents:
* `Token`, `Quoted`.
* `tokens?`: the tokens of a text, or nothing when it has none.
-/

namespace Patchbay.Expr

open Patchbay.Text

/-- A quoted text as written: the letters before it and what stands between its quotes. -/
structure Quoted where
  letters : List Char
  body : List Char

/-- Whether a letter stands before a quoted text, in either case. -/
def Quoted.has (q : Quoted) (c : Char) : Bool := q.letters.any fun d => d.toLower == c

/-- A token. -/
inductive Token where
  | name (s : String)
  | number (c : Constant)
  | quoted (q : Quoted)
  | op (s : String)
  | lineEnd

/-! ## Numbers -/

/-- Digits with single low lines between them, the first of them a digit: digits and rest. -/
def digitRun? (isDigit : Char → Bool) : List Char → Option (List Char × List Char)
  | [] => none
  | [c] => if isDigit c then some ([c], []) else none
  | c :: '_' :: more =>
    if isDigit c then (digitRun? isDigit more).map fun (ds, r) => (c :: ds, r) else none
  | c :: d :: more =>
    if !isDigit c then none
    else if isDigit d then (digitRun? isDigit (d :: more)).map fun (ds, r) => (c :: ds, r)
    else some ([c], d :: more)

/-- Words that may follow a number without a blank. -/
def followers : List String := ["and", "else", "for", "if", "in", "is", "or", "not"]

/-- Whether a number may end before this text. -/
def numberEnds (cs : List Char) : Bool :=
  match cs with
  | [] => true
  | c :: _ =>
    if followers.any fun w => w.toList.isPrefixOf cs then true
    else !(c.isAlphanum || c == '_' || c.toNat ≥ 128)

/-- A number of a marked base after its mark. -/
def markedNumber? (base : Nat) (cs : List Char) : Option (Constant × List Char) :=
  let cs := match cs with
    | '_' :: rest => rest
    | cs => cs
  let inBase (c : Char) : Bool := match Decimal.alnumValue? c with
    | some d => d < base
    | none => false
  match digitRun? inBase cs with
  | none => none
  | some (ds, rest) =>
    if (rest.head?.map Char.isDigit).getD false || !numberEnds rest then none
    else
      let n := ds.foldl (fun n c => base * n + (Decimal.alnumValue? c).getD 0) 0
      some (.int n, rest)

/-- The fraction after a point, empty when no digit follows. -/
def fractionRun? (cs : List Char) : Option (List Char × List Char) :=
  match cs with
  | c :: _ => if c.isDigit then digitRun? Char.isDigit cs else some ([], cs)
  | [] => some ([], [])

/-- An exponent and the rest; nothing read when the mark starts a word instead, refusal when a sign
has no digits. -/
def exponentRun? (cs : List Char) : Option (Option Int × List Char) :=
  match cs with
  | e :: rest =>
    if e == 'e' || e == 'E' then
      let signed (negative : Bool) (r : List Char) : Option (Option Int × List Char) :=
        (digitRun? Char.isDigit r).map fun (ds, r) =>
          let n : Int := Decimal.natOfDigits ds
          (some (if negative then -n else n), r)
      match rest with
      | '+' :: r => signed false r
      | '-' :: r => signed true r
      | d :: _ => if d.isDigit then signed false rest else some (none, cs)
      | [] => some (none, cs)
    else some (none, cs)
  | [] => some (none, [])

/-- What follows the whole part of a number: fraction, exponent and the mark of an imaginary one. -/
def numberTail? (whole : List Char) (cs : List Char) : Option (Constant × List Char) := do
  let (point, fraction, cs) ← match cs with
    | '.' :: rest => (fractionRun? rest).map fun (f, r) => (true, f, r)
    | cs => some (false, [], cs)
  let (exponent, cs) ← exponentRun? cs
  let digits := whole ++ fraction
  let x := Binary64.ofDecimal (Decimal.natOfDigits digits) (exponent.getD 0 - fraction.length)
  match cs with
  | j :: rest =>
    if j == 'j' || j == 'J' then
      if numberEnds rest then return (.imaginary x, rest) else none
    else if !numberEnds cs then none
    else if point || exponent.isSome then return (.float x, cs)
    else if whole.length > 1 && whole.head? == some '0' && whole.any (· ≠ '0') then none
    else return (.int (Decimal.natOfDigits whole), cs)
  | [] =>
    if point || exponent.isSome then return (.float x, [])
    else if whole.length > 1 && whole.head? == some '0' && whole.any (· ≠ '0') then none
    else return (.int (Decimal.natOfDigits whole), [])

/-- The number at the start of a text. -/
def number? (cs : List Char) : Option (Constant × List Char) :=
  match cs with
  | '.' :: _ => numberTail? [] cs
  | _ => match Decimal.markedBase? cs with
    | some base => markedNumber? base (cs.drop 2)
    | none => match digitRun? Char.isDigit cs with
      | some (whole, rest) => numberTail? whole rest
      | none => none

/-! ## Quoted texts -/

/-- The letters that may stand before a quoted text. -/
def quoteLetters : List String := ["", "r", "u", "b", "f", "br", "rb", "fr", "rf"]

/-- The body of a quoted text after its opening quotes: up to `closing`, a backslash taking the next
character with it. A line end is refused unless there are three quotes. -/
def quotedBody? (closing : List Char) (acc : List Char) : List Char → Option (List Char × List Char)
  | [] => none
  | '\\' :: c :: rest => quotedBody? closing (c :: '\\' :: acc) rest
  | c :: rest =>
    if closing.isPrefixOf (c :: rest) then some (acc.reverse, (c :: rest).drop closing.length)
    else if c == '\n' && closing.length == 1 then none
    else quotedBody? closing (c :: acc) rest

/-- A quoted text from its opening quote on. -/
def quoted? (letters : List Char) (cs : List Char) : Option (Quoted × List Char) :=
  match cs with
  | a :: b :: c :: rest =>
    if a == b && b == c then
      (quotedBody? [a, a, a] [] rest).map fun (body, rest) => (⟨letters, body⟩, rest)
    else if a == b then some (⟨letters, []⟩, c :: rest)
    else (quotedBody? [a] [] (b :: c :: rest)).map fun (body, rest) => (⟨letters, body⟩, rest)
  | [a, b] => if a == b then some (⟨letters, []⟩, []) else none
  | _ => none

/-! ## Operators -/

/-- Operators of several characters, longer ones first. -/
def longOperators : List String :=
  ["**=", "//=", ">>=", "<<=", "...", "**", "//", ">>", "<<", "<=", ">=", "==", "!=", "->", "+=",
    "-=", "*=", "/=", "%=", "&=", "|=", "^=", "@=", ":=", "<>"]

/-- Operators of one character. -/
def shortOperators : List Char := "+-*/%@&|^~<>()[]\x7b\x7d,:.;=".toList

/-- The operator at the start of a text. -/
def operator? (cs : List Char) : Option (String × List Char) :=
  match longOperators.find? fun o => o.toList.isPrefixOf cs with
  | some o => some (o, cs.drop o.length)
  | none => match cs with
    | c :: rest => if shortOperators.contains c then some (c.toString, rest) else none
    | [] => none

/-- The bracket that closes an opening one. -/
def closingOf? (s : String) : Option String :=
  match s with
  | "(" => some ")"
  | "[" => some "]"
  | "\x7b" => some "\x7d"
  | _ => none

/-- Deepest nesting of brackets. -/
def maxBrackets : Nat := 200

/-- The closing brackets still awaited after an operator, or nothing on a mismatch. -/
def nest? (awaited : List String) (o : String) : Option (List String) :=
  match closingOf? o with
  | some c => if awaited.length ≥ maxBrackets then none else some (c :: awaited)
  | none =>
    if o == ")" || o == "]" || o == "\x7d" then
      match awaited with
      | c :: rest => if c == o then some rest else none
      | [] => none
    else some awaited

/-! ## The whole text -/

/-- Line ends in one form. -/
def unifyLines : List Char → List Char
  | '\r' :: '\n' :: rest => '\n' :: unifyLines rest
  | '\r' :: rest => '\n' :: unifyLines rest
  | c :: rest => c :: unifyLines rest
  | [] => []

/-- Whether a character may be part of a name, before its script is looked at. -/
def isNameLike (c : Char) : Bool := c.isAlphanum || c == '_' || c.toNat ≥ 128

/-- Whether characters form a name. -/
def isName : List Char → Bool
  | [] => false
  | c :: rest => isNameStart c && rest.all isNameContinue

/-- The tokens from here on, in front of which stand those of `acc` in reverse; `awaited` are the
closing brackets still to come and `fuel` bounds the number of tokens and blanks. -/
def tokensFrom? : Nat → List String → List Token → List Char → Option (List Token)
  | 0, _, _, _ => none
  | _ + 1, awaited, acc, [] => if awaited.isEmpty then some acc.reverse else none
  | fuel + 1, awaited, acc, c :: rest =>
    if c == ' ' || c == '\t' || c == '\x0c' then tokensFrom? fuel awaited acc rest
    else if c == '#' then tokensFrom? fuel awaited acc (rest.dropWhile (· ≠ '\n'))
    else if c == '\n' then
      tokensFrom? fuel awaited (if awaited.isEmpty then .lineEnd :: acc else acc) rest
    else if c == '\\' then
      match rest with
      | '\n' :: more => if more.isEmpty then none else tokensFrom? fuel awaited acc more
      | _ => none
    else if c == '\'' || c == '"' then
      match quoted? [] (c :: rest) with
      | some (q, rest) => tokensFrom? fuel awaited (.quoted q :: acc) rest
      | none => none
    else if c.isDigit || (c == '.' && (rest.head?.map Char.isDigit).getD false) then
      match number? (c :: rest) with
      | some (n, rest) => tokensFrom? fuel awaited (.number n :: acc) rest
      | none => none
    else if isNameLike c then
      let word := (c :: rest).takeWhile isNameLike
      let after := (c :: rest).dropWhile isNameLike
      let letters := String.ofList (word.map Char.toLower)
      if (after.head? == some '\'' || after.head? == some '"') && quoteLetters.contains letters then
        match quoted? word after with
        | some (q, rest) => tokensFrom? fuel awaited (.quoted q :: acc) rest
        | none => none
      else if isName word then tokensFrom? fuel awaited (.name (String.ofList word) :: acc) after
      else none
    else
      match operator? (c :: rest) with
      | some (o, rest) =>
        match nest? awaited o with
        | some awaited => tokensFrom? fuel awaited (.op o :: acc) rest
        | none => none
      | none => none

/-- The tokens of a text, or nothing when it cannot be cut into tokens. -/
def tokens? (cs : List Char) : Option (List Token) :=
  let cs := unifyLines cs
  tokensFrom? (cs.length + 1) [] [] cs

end Patchbay.Expr
