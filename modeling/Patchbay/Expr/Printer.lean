import Patchbay.Expr.Tree
import Patchbay.Value.Sequence
import Patchbay.Value.Show

/-!
# Printing expressions

The text of an expression tree, with brackets only where the strength of operators asks for them. It
is shown when an expression calls something that is no function.

Contents:
* `Tree.render`: the text of a tree under the strength of its surroundings.
* `Tree.text`: the text of a tree on its own.
-/

namespace Patchbay.Expr

/-! ## Strengths -/

/-- Strengths of constructs, weaker ones first. -/
def Strength.named : Nat := 1
def Strength.tuple : Nat := 2
def Strength.yield : Nat := 3
def Strength.test : Nat := 4
def Strength.either : Nat := 5
def Strength.both : Nat := 6
def Strength.negation : Nat := 7
def Strength.comparison : Nat := 8
def Strength.operand : Nat := 9
def Strength.factor : Nat := 15
def Strength.power : Nat := 16
def Strength.await : Nat := 17
def Strength.atom : Nat := 18

/-- The sign of a binary operator and its strength. -/
def BinaryOp.sign : BinaryOp → String × Nat
  | .add => ("+", 13)
  | .sub => ("-", 13)
  | .mult => ("*", 14)
  | .matMult => ("@", 14)
  | .div => ("/", 14)
  | .mod => ("%", 14)
  | .floorDiv => ("//", 14)
  | .lShift => ("<<", 12)
  | .rShift => (">>", 12)
  | .bitOr => ("|", 9)
  | .bitXor => ("^", 10)
  | .bitAnd => ("&", 11)
  | .pow => ("**", 16)

/-- The sign of a unary operator. -/
def UnaryOp.sign : UnaryOp → String
  | .invert => "~"
  | .not => "not "
  | .plus => "+"
  | .minus => "-"

/-- The strength of a unary operator. -/
def UnaryOp.strength : UnaryOp → Nat
  | .not => Strength.negation
  | _ => Strength.factor

/-- The sign of a comparison. -/
def CompareOp.sign : CompareOp → String
  | .eq => "=="
  | .notEq => "!="
  | .lt => "<"
  | .ltE => "<="
  | .gt => ">"
  | .gtE => ">="
  | .is => "is"
  | .isNot => "is not"
  | .isIn => "in"
  | .notIn => "not in"

/-! ## Constants -/

/-- Bytes between quotes. -/
def bytesText (codes : List Nat) : String :=
  let q := if codes.contains 39 && !codes.contains 34 then '"' else '\''
  let one (n : Nat) : String :=
    if n == q.toNat || n == 92 then String.ofList ['\\', Char.ofNat n]
    else if n == 9 then "\\t"
    else if n == 10 then "\\n"
    else if n == 13 then "\\r"
    else if n < 32 || n ≥ 127 then "\\x" ++ Text.hexText 2 n
    else (Char.ofNat n).toString
  "b" ++ q.toString ++ String.join (codes.map one) ++ q.toString

/-- A double as source text: an infinity is written as a number out of range. -/
def floatSource (l : Decimal.Layout) (x : Float) : String :=
  if x.isInf then "1e309" else l.render x

/-- The text of a constant in a message. -/
def Constant.shown : Constant → String
  | .null => "None"
  | .bool b => if b then "True" else "False"
  | .int n => toString n
  | .float x => Value.floatText x
  | .imaginary x => Value.complexText 0.0 x
  | .str s _ => Text.quote s
  | .bytes codes => bytesText codes
  | .ellipsis => "Ellipsis"

/-- The text of a constant as source. -/
def Constant.source : Constant → String
  | .float x => floatSource Value.display x
  | .imaginary x => floatSource Value.displayPart x ++ "j"
  | .str s marked => (if marked then "u" else "") ++ Text.quote s
  | .ellipsis => "..."
  | c => c.shown

/-! ## Quotes without backslashes -/

/-- The quotes a text may stand between, preferred ones first. -/
def allQuotes : List String := ["'", "\"", "\"\"\"", "'''"]

/-- A character that is escaped even where backslashes are avoided. -/
def escapeRare (whitespace : Bool) (c : Char) : String :=
  if (c == '\n' || c == '\t') && !whitespace then c.toString
  else if c == '\\' || !Text.isPrintable c then Text.quoteChar '\x00' c
  else c.toString

/-- Whether one text stands in another. -/
def occursIn (needle haystack : String) : Bool :=
  Value.isInfixOf needle.toList haystack.toList

/-- A text with few escapes, and the quotes it may stand between. -/
def fewEscapes (quotes : List String) (whitespace : Bool) (s : String) : String × List String :=
  let escaped := String.join (s.toList.map (escapeRare whitespace))
  let possible := quotes.filter fun q =>
    (!occursIn "\n" escaped || q.length == 3) && !occursIn q escaped
  match possible with
  | [] =>
    let r := (Text.quote s).toList
    let q := (r.head?.map Char.toString).getD "'"
    let chosen := (quotes.find? fun c => occursIn q c).getD q
    (String.ofList ((r.drop 1).dropLast), [chosen])
  | _ =>
    match escaped.toList.getLast? with
    | none => (escaped, possible)
    | some last =>
      let clashes (q : String) : Bool := q.toList.head? == some last
      let sorted := (possible.filter fun q => !clashes q) ++ possible.filter clashes
      if (sorted.head?.map clashes).getD false then
        (String.ofList (escaped.toList.dropLast ++ ['\\', last]), sorted)
      else (escaped, sorted)

/-- A text between quotes with few escapes. -/
def plainQuoted (s : String) : String :=
  let (body, quotes) := fewEscapes allQuotes false s
  let q := quotes.head?.getD "'"
  q ++ body ++ q

/-- A text with doubled braces. -/
def doubleBraces (s : String) : String :=
  String.ofList (s.toList.flatMap fun c => if c == '\x7b' || c == '\x7d' then [c, c] else [c])

/-- The body of a text with expressions from its parts, each with whether it is constant, and the
quote around it. -/
def joinParts (parts : List (String × Bool)) : String :=
  let step (acc : Option (String × List String)) (p : String × Bool) :
      Option (String × List String) :=
    acc.bind fun (body, quotes) =>
      let (s, next) := fewEscapes quotes p.2 p.1
      if next.any quotes.contains then some (body ++ s, next) else none
  match parts.foldl step (some ("", allQuotes)) with
  | some (body, quotes) => let q := quotes.head?.getD "'"; q ++ body ++ q
  | none =>
    let body := String.join (parts.map fun (s, _) =>
      String.ofList ((Text.quote ("\"" ++ s)).toList.drop 2).dropLast)
    "'''" ++ body ++ "'''"

/-! ## Trees -/

/-- Brackets around a text when its surroundings are stronger than it. -/
def bracketIf (needed : Bool) (s : String) : String := if needed then "(" ++ s ++ ")" else s

/-- Texts between commas; a single one is followed by a comma. -/
def tupleText (parts : List String) : String :=
  match parts with
  | [p] => p ++ ","
  | ps => String.intercalate ", " ps

/-- Whether an attribute needs a blank before its point: after an integer. -/
def needsBlank : Tree → Bool
  | .const (.int _) => true
  | .const (.bool _) => true
  | _ => false

/-- Parameters with the texts of their defaults. -/
def withDefaults : List (String × Bool) → List String → List String × List String
  | [], ds => ([], ds)
  | (p, true) :: ps, d :: ds =>
    let (r, ds) := withDefaults ps ds
    ((p ++ "=" ++ d) :: r, ds)
  | (p, _) :: ps, ds =>
    let (r, ds) := withDefaults ps ds
    (p :: r, ds)

/-- The text of a parameter list. -/
def Params.text (p : Params) (defaults : List String) : String :=
  let (only, ds) := withDefaults p.positionalOnly defaults
  let (plain, ds) := withDefaults p.positional ds
  let (named, _) := withDefaults p.keywordOnly ds
  let slash := if only.isEmpty then [] else ["/"]
  let star := match p.rest with
    | some r => ["*" ++ r]
    | none => if named.isEmpty then [] else ["*"]
  let last := match p.keywordRest with
    | some r => ["**" ++ r]
    | none => []
  String.intercalate ", " (only ++ slash ++ plain ++ star ++ named ++ last)

/-- An expression in braces, with its conversion and format. A blank keeps braces apart. -/
def holeText (inner : String) (conversion : Option Char) (format : String) : String :=
  let blank := if inner.toList.head? == some '\x7b' then " " else ""
  let mark := match conversion with
    | some c => "!" ++ c.toString
    | none => ""
  "\x7b" ++ blank ++ inner ++ mark ++ format ++ "\x7d"

/-- Whether a part of a text with expressions is constant. -/
def isConstantPart : Tree → Bool
  | .const _ => true
  | _ => false

mutual

/-- The text of a tree under the strength of its surroundings; `plain` avoids backslashes. -/
def Tree.render (plain : Bool) (strength : Nat) : Tree → String
  | .const (.str s marked) =>
    if plain then (if marked then "u" else "") ++ plainQuoted s else Constant.source (.str s marked)
  | .const c => c.source
  | .name id => id
  | .binary op l r =>
    let (sign, own) := op.sign
    let (ls, rs) := if op == .pow then (own + 1, own) else (own, own + 1)
    bracketIf (strength > own)
      (Tree.render plain ls l ++ " " ++ sign ++ " " ++ Tree.render plain rs r)
  | .unary op e =>
    bracketIf (strength > op.strength) (op.sign ++ Tree.render plain op.strength e)
  | .logic both es =>
    let own := if both then Strength.both else Strength.either
    bracketIf (strength > own)
      (String.intercalate (if both then " and " else " or ") (renderRising plain (own + 1) es))
  | .compare l rest =>
    bracketIf (strength > Strength.comparison)
      (Tree.render plain Strength.operand l ++ String.join (renderComparisons plain rest))
  | .choice test body orelse =>
    bracketIf (strength > Strength.test)
      (Tree.render plain Strength.either body ++ " if " ++ Tree.render plain Strength.either test
        ++ " else " ++ Tree.render plain Strength.test orelse)
  | .subscript v i =>
    let index := match i with
      | .tuple es => if es.isEmpty then "()" else tupleText (renderList plain Strength.test es)
      | i => Tree.render plain Strength.test i
    Tree.render plain Strength.atom v ++ "[" ++ index ++ "]"
  | .slice lo hi step =>
    let third := match step with
      | some _ => ":"
      | none => ""
    renderOption plain lo ++ ":" ++ renderOption plain hi ++ third ++ renderOption plain step
  | .list es => "[" ++ String.intercalate ", " (renderList plain Strength.test es) ++ "]"
  | .tuple es =>
    bracketIf (es.isEmpty || strength > Strength.tuple)
      (tupleText (renderList plain Strength.test es))
  | .set es => "\x7b" ++ String.intercalate ", " (renderList plain Strength.test es) ++ "\x7d"
  | .dict es => "\x7b" ++ String.intercalate ", " (renderEntries plain es) ++ "\x7d"
  | .call f args names values =>
    let keyed := (names.zip (renderList plain Strength.test values)).map fun (n, v) =>
      match n with
      | some n => n ++ "=" ++ v
      | none => "**" ++ v
    Tree.render plain Strength.atom f ++ "("
      ++ String.intercalate ", " (renderList plain Strength.test args ++ keyed) ++ ")"
  | .starred e => "*" ++ Tree.render plain Strength.operand e
  | .attribute e attr =>
    Tree.render plain Strength.atom e ++ (if needsBlank e then " ." else ".") ++ attr
  | .lambda params defaults body =>
    let ps := params.text (renderList plain Strength.test defaults)
    bracketIf (strength > Strength.test)
      ("lambda" ++ (if ps.isEmpty then "" else " " ++ ps) ++ ": "
        ++ Tree.render plain Strength.test body)
  | .comprehension kind items cs =>
    let inner := String.intercalate ": " (renderList plain Strength.test items)
      ++ String.join (renderClauses plain cs)
    match kind with
    | .list => "[" ++ inner ++ "]"
    | .generator => "(" ++ inner ++ ")"
    | _ => "\x7b" ++ inner ++ "\x7d"
  | .await e => bracketIf (strength > Strength.await) ("await " ++ Tree.render plain Strength.atom e)
  | .yield none => bracketIf (strength > Strength.yield) "yield"
  | .yield (some e) =>
    bracketIf (strength > Strength.yield) ("yield " ++ Tree.render plain Strength.atom e)
  | .yieldFrom e =>
    bracketIf (strength > Strength.yield) ("yield from " ++ Tree.render plain Strength.atom e)
  | .named t e =>
    bracketIf (strength > Strength.named) (t ++ " := " ++ Tree.render plain Strength.atom e)
  | .joined parts =>
    let texts := renderParts parts
    if plain then "f" ++ plainQuoted (String.join texts)
    else "f" ++ joinParts (texts.zip (parts.map isConstantPart))
  | .formatted e conversion spec =>
    holeText (Tree.render true Strength.either e) conversion (renderFormat spec)

/-- The texts of trees in the same surroundings. -/
def renderList (plain : Bool) (strength : Nat) : List Tree → List String
  | [] => []
  | e :: es => Tree.render plain strength e :: renderList plain strength es

/-- The texts of operands of `and` or `or`, each under a greater strength than the one before. -/
def renderRising (plain : Bool) (strength : Nat) : List Tree → List String
  | [] => []
  | e :: es =>
    Tree.render plain strength e :: renderRising plain (min (strength + 1) Strength.atom) es

/-- The text of a tree that may be absent. -/
def renderOption (plain : Bool) : Option Tree → String
  | none => ""
  | some e => Tree.render plain Strength.test e

/-- The texts of comparisons. -/
def renderComparisons (plain : Bool) : List (CompareOp × Tree) → List String
  | [] => []
  | c :: cs => renderComparison plain c :: renderComparisons plain cs

/-- The text of one comparison. -/
def renderComparison (plain : Bool) : CompareOp × Tree → String
  | (op, e) => " " ++ op.sign ++ " " ++ Tree.render plain Strength.operand e

/-- The texts of entries. -/
def renderEntries (plain : Bool) : List (Option Tree × Tree) → List String
  | [] => []
  | e :: es => renderEntry plain e :: renderEntries plain es

/-- The text of one entry. -/
def renderEntry (plain : Bool) : Option Tree × Tree → String
  | (some k, v) => Tree.render plain Strength.test k ++ ": " ++ Tree.render plain Strength.test v
  | (none, v) => "**" ++ Tree.render plain Strength.operand v

/-- The texts of clauses. -/
def renderClauses (plain : Bool) : List (Bool × List Tree) → List String
  | [] => []
  | c :: cs => renderClause plain c :: renderClauses plain cs

/-- The text of one clause. -/
def renderClause (plain : Bool) : Bool × List Tree → String
  | (async, target :: rest) =>
    (if async then " async for " else " for ") ++ Tree.render plain Strength.tuple target
      ++ (match renderList plain Strength.either rest with
        | [] => ""
        | source :: conditions => " in " ++ source ++ String.join (conditions.map (" if " ++ ·)))
  | (_, []) => ""

/-- The parts of a text with expressions. -/
def renderParts : List Tree → List String
  | [] => []
  | e :: es => renderPart e :: renderParts es

/-- One part of a text with expressions. -/
def renderPart : Tree → String
  | .const (.str s _) => doubleBraces s
  | .joined parts => String.join (renderParts parts)
  | .formatted e conversion spec =>
    holeText (Tree.render true Strength.either e) conversion (renderFormat spec)
  | _ => ""

/-- The format of an expression in braces. -/
def renderFormat : Option Tree → String
  | none => ""
  | some e => ":" ++ renderPart e

end

/-- The text of a tree on its own. -/
def Tree.text (t : Tree) : String := Tree.render false Strength.test t

end Patchbay.Expr
