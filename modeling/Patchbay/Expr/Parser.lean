import Patchbay.Expr.Literal

/-!
# Parsing expressions

Recursive descent over tokens, one function for each level of the grammar. A text is one expression,
or several between commas, which make a tuple; anything after it makes the whole text invalid.

Every function takes a bound on the number of calls; `parse?` computes one that no text exceeds.

Contents:
* `parse?`: the tree of a text, or nothing when it is no expression.
-/

namespace Patchbay.Expr

/-- Words that are no names. -/
def keywords : List String :=
  ["False", "None", "True", "and", "as", "assert", "async", "await", "break", "class", "continue",
    "def", "del", "elif", "else", "except", "finally", "for", "from", "global", "if", "import", "in",
    "is", "lambda", "nonlocal", "not", "or", "pass", "raise", "return", "try", "while", "with",
    "yield"]

/-- Whether an operator token stands first. -/
def startsOp (o : String) : List Token → Bool
  | .op p :: _ => p == o
  | _ => false

/-- Whether a name about to be bound stands first. -/
def startsBinding : List Token → Bool
  | .name _ :: .op ":=" :: _ => true
  | _ => false

/-- Whether a word stands first. -/
def startsWord (w : String) : List Token → Bool
  | .name v :: _ => v == w
  | _ => false

/-- Whether a clause of a comprehension starts here. -/
def startsClause (ts : List Token) : Bool := startsWord "for" ts || startsWord "async" ts

/-- Drops an operator token that has to stand here. -/
def expectOp (o : String) : List Token → Option (List Token)
  | .op p :: rest => if p == o then some rest else none
  | _ => none

/-- Drops a word that has to stand here. -/
def expectWord (w : String) : List Token → Option (List Token)
  | .name v :: rest => if v == w then some rest else none
  | _ => none

/-- The name at the front. -/
def nameToken : List Token → Option (String × List Token)
  | .name v :: rest => if keywords.contains v then none else some (v, rest)
  | _ => none

/-- The operator of a binary level and its strength. -/
def binaryOp? (s : String) : Option (BinaryOp × Nat) :=
  match s with
  | "|" => some (.bitOr, 1)
  | "^" => some (.bitXor, 2)
  | "&" => some (.bitAnd, 3)
  | "<<" => some (.lShift, 4)
  | ">>" => some (.rShift, 4)
  | "+" => some (.add, 5)
  | "-" => some (.sub, 5)
  | "*" => some (.mult, 6)
  | "/" => some (.div, 6)
  | "//" => some (.floorDiv, 6)
  | "%" => some (.mod, 6)
  | "@" => some (.matMult, 6)
  | _ => none

/-- The comparison operator at the front. -/
def compareOp? : List Token → Option (CompareOp × List Token)
  | .op "==" :: r => some (.eq, r)
  | .op "!=" :: r => some (.notEq, r)
  | .op "<" :: r => some (.lt, r)
  | .op "<=" :: r => some (.ltE, r)
  | .op ">" :: r => some (.gt, r)
  | .op ">=" :: r => some (.gtE, r)
  | .name "in" :: r => some (.isIn, r)
  | .name "not" :: .name "in" :: r => some (.notIn, r)
  | .name "is" :: .name "not" :: r => some (.isNot, r)
  | .name "is" :: r => some (.is, r)
  | _ => none

/-- The operator in front of a factor. -/
def factorOp? (s : String) : Option UnaryOp :=
  match s with
  | "+" => some .plus
  | "-" => some .minus
  | "~" => some .invert
  | _ => none

mutual

/-- Whether a tree may be assigned to. -/
def isTarget : Tree → Bool
  | .name _ => true
  | .attribute _ _ => true
  | .subscript _ _ => true
  | .starred t => isTarget t
  | .tuple ts => areTargets ts
  | .list ts => areTargets ts
  | _ => false

/-- Whether all trees may be assigned to. -/
def areTargets : List Tree → Bool
  | [] => true
  | t :: ts => isTarget t && areTargets ts

end

/-- Joins neighbouring constant parts of a text with expressions. -/
def mergeParts : List Tree → List Tree
  | .const (.str a m) :: rest =>
    match mergeParts rest with
    | .const (.str b _) :: more => .const (.str (a ++ b) m) :: more
    | merged => if a.isEmpty then merged else .const (.str a m) :: merged
  | t :: rest => t :: mergeParts rest
  | [] => []

/-- The quoted texts at the front. -/
def quotedRun : List Token → List Quoted × List Token
  | .quoted q :: rest => let (qs, r) := quotedRun rest; (q :: qs, r)
  | ts => ([], ts)

/-- A parameter list under construction. -/
structure ParamScan where
  params : Params := ⟨[], [], none, [], none⟩
  defaults : List Tree := []
  /-- a star has been read -/
  star : Bool := false
  /-- the star had no name, so a name has to follow -/
  bare : Bool := false

mutual

/-- An expression: a choice, a disjunction or a lambda. -/
def expression : Nat → List Token → Option (Tree × List Token)
  | 0, _ => none
  | n + 1, ts =>
    if startsWord "lambda" ts then lambda n (ts.drop 1)
    else do
      let (body, ts) ← disjunction n ts
      if startsWord "if" ts then
        let (test, ts) ← disjunction n (ts.drop 1)
        let ts ← expectWord "else" ts
        let (orelse, ts) ← expression n ts
        return (.choice test body orelse, ts)
      else return (body, ts)

/-- An expression that may bind a name. -/
def namedExpression : Nat → List Token → Option (Tree × List Token)
  | 0, _ => none
  | n + 1, ts =>
    match ts with
    | .name v :: .op ":=" :: rest =>
      if keywords.contains v then none
      else do
        let (e, ts) ← expression n rest
        return (.named v e, ts)
    | ts => expression n ts

/-- Operands joined by `or`. -/
def disjunction : Nat → List Token → Option (Tree × List Token)
  | 0, _ => none
  | n + 1, ts => do
    let (t, ts) ← conjunction n ts
    let (more, ts) ← operands n false ts
    return (if more.isEmpty then t else .logic false (t :: more), ts)

/-- Operands joined by `and`. -/
def conjunction : Nat → List Token → Option (Tree × List Token)
  | 0, _ => none
  | n + 1, ts => do
    let (t, ts) ← inversion n ts
    let (more, ts) ← operands n true ts
    return (if more.isEmpty then t else .logic true (t :: more), ts)

/-- Further operands of `and` or `or`. -/
def operands : Nat → Bool → List Token → Option (List Tree × List Token)
  | 0, _, _ => none
  | n + 1, both, ts =>
    if startsWord (if both then "and" else "or") ts then do
      let (t, ts) ← if both then inversion n (ts.drop 1) else conjunction n (ts.drop 1)
      let (more, ts) ← operands n both ts
      return (t :: more, ts)
    else some ([], ts)

/-- A comparison behind any number of `not`. -/
def inversion : Nat → List Token → Option (Tree × List Token)
  | 0, _ => none
  | n + 1, ts =>
    if startsWord "not" ts then do
      let (t, ts) ← inversion n (ts.drop 1)
      return (.unary .not t, ts)
    else do
      let (left, ts) ← binary n 1 ts
      let (rest, ts) ← comparisons n ts
      return (if rest.isEmpty then left else .compare left rest, ts)

/-- Comparison operators with their right operands. -/
def comparisons : Nat → List Token → Option (List (CompareOp × Tree) × List Token)
  | 0, _ => none
  | n + 1, ts =>
    match compareOp? ts with
    | none => some ([], ts)
    | some (op, rest) => do
      let (t, ts) ← binary n 1 rest
      let (more, ts) ← comparisons n ts
      return ((op, t) :: more, ts)

/-- Operands joined by binary operators of at least the given strength. -/
def binary : Nat → Nat → List Token → Option (Tree × List Token)
  | 0, _, _ => none
  | n + 1, strength, ts => do
    let (left, ts) ← factor n ts
    binaryRest n strength left ts

/-- What follows a left operand. -/
def binaryRest : Nat → Nat → Tree → List Token → Option (Tree × List Token)
  | 0, _, _, _ => none
  | n + 1, strength, left, ts =>
    match ts with
    | .op o :: rest =>
      match binaryOp? o with
      | some (op, s) =>
        if s ≥ strength then do
          let (right, ts) ← binary n (s + 1) rest
          binaryRest n strength (.binary op left right) ts
        else some (left, ts)
      | none => some (left, ts)
    | ts => some (left, ts)

/-- A power behind any number of signs. -/
def factor : Nat → List Token → Option (Tree × List Token)
  | 0, _ => none
  | n + 1, ts =>
    match ts with
    | .op o :: rest =>
      match factorOp? o with
      | some op => do
        let (t, ts) ← factor n rest
        return (.unary op t, ts)
      | none => power n ts
    | ts => power n ts

/-- A primary, perhaps raised to a factor. -/
def power : Nat → List Token → Option (Tree × List Token)
  | 0, _ => none
  | n + 1, ts => do
    let (base, ts) ←
      if startsWord "await" ts then do
        let (t, ts) ← primary n (ts.drop 1)
        pure (.await t, ts)
      else primary n ts
    if startsOp "**" ts then
      let (e, ts) ← factor n (ts.drop 1)
      return (.binary .pow base e, ts)
    else return (base, ts)

/-- An atom with attributes, calls and subscripts. -/
def primary : Nat → List Token → Option (Tree × List Token)
  | 0, _ => none
  | n + 1, ts => do
    let (t, ts) ← atom n ts
    trailers n t ts

/-- Attributes, calls and subscripts after a primary. -/
def trailers : Nat → Tree → List Token → Option (Tree × List Token)
  | 0, _, _ => none
  | n + 1, t, ts =>
    match ts with
    | .op "." :: rest => do
      let (attr, ts) ← nameToken rest
      trailers n (.attribute t attr) ts
    | .op "(" :: rest => do
      let (call, ts) ← arguments n t [] [] [] false rest
      trailers n call ts
    | .op "[" :: rest => do
      let (index, ts) ← subscripts n [] rest
      trailers n (.subscript t index) ts
    | ts => some (t, ts)

/-- The arguments of a call up to its closing bracket; `spread` tells whether a dictionary has been
spread, after which no positional argument may come. All lists are in reverse. -/
def arguments : Nat → Tree → List Tree → List (Option String) → List Tree → Bool → List Token →
    Option (Tree × List Token)
  | 0, _, _, _, _, _, _ => none
  | n + 1, func, args, names, values, spread, ts =>
    let finish (args : List Tree) (names : List (Option String)) (values : List Tree)
        (spread : Bool) (ts : List Token) : Option (Tree × List Token) :=
      match ts with
      | .op ")" :: rest => some (.call func args.reverse names.reverse values.reverse, rest)
      | .op "," :: rest => arguments n func args names values spread rest
      | _ => none
    match ts with
    | .op ")" :: rest => some (.call func args.reverse names.reverse values.reverse, rest)
    | .op "**" :: rest => do
      let (e, ts) ← expression n rest
      finish args (none :: names) (e :: values) true ts
    | .op "*" :: rest =>
      if spread then none
      else do
        let (e, ts) ← expression n rest
        finish (.starred e :: args) names values spread ts
    | .name v :: .op "=" :: rest =>
      if keywords.contains v then none
      else do
        let (e, ts) ← expression n rest
        finish args (some v :: names) (e :: values) spread ts
    | ts =>
      if !names.isEmpty then none
      else do
        let (e, ts) ← namedExpression n ts
        if startsClause ts then
          if !args.isEmpty then none
          else
            let (cs, ts) ← clauses n ts
            let ts ← expectOp ")" ts
            return (.call func [.comprehension .generator [e] cs] [] [], ts)
        else finish (e :: args) names values spread ts

/-- The subscripts up to the closing bracket, in reverse; several, or one followed by a comma, make
a tuple. -/
def subscripts : Nat → List Tree → List Token → Option (Tree × List Token)
  | 0, _, _ => none
  | n + 1, acc, ts =>
    match ts with
    | .op "]" :: rest => if acc.isEmpty then none else some (.tuple acc.reverse, rest)
    | ts => do
      let (t, starred, ts) ← match ts with
        | .op "*" :: rest => do
          let (e, ts) ← expression n rest
          pure (Tree.starred e, true, ts)
        | ts => do
          let (e, ts) ← subscriptItem n ts
          pure (e, false, ts)
      match ts with
      | .op "," :: rest => subscripts n (t :: acc) rest
      | .op "]" :: rest =>
        if acc.isEmpty && !starred then some (t, rest) else some (.tuple (t :: acc).reverse, rest)
      | _ => none

/-- One subscript: an expression or a slice. -/
def subscriptItem : Nat → List Token → Option (Tree × List Token)
  | 0, _ => none
  | n + 1, ts =>
    if startsOp ":" ts then sliceRest n none (ts.drop 1)
    else do
      let binds := startsBinding ts
      let (e, ts) ← namedExpression n ts
      if startsOp ":" ts then
        if binds then none else sliceRest n (some e) (ts.drop 1)
      else return (e, ts)

/-- A slice after its first colon. -/
def sliceRest : Nat → Option Tree → List Token → Option (Tree × List Token)
  | 0, _, _ => none
  | n + 1, lower, ts => do
    let (upper, ts) ← sliceBound n ts
    if startsOp ":" ts then
      let (step, ts) ← sliceBound n (ts.drop 1)
      return (.slice lower upper step, ts)
    else return (.slice lower upper none, ts)

/-- A bound of a slice, which may be absent. -/
def sliceBound : Nat → List Token → Option (Option Tree × List Token)
  | 0, _ => none
  | n + 1, ts =>
    if startsOp ":" ts || startsOp "," ts || startsOp "]" ts then some (none, ts)
    else do
      let (e, ts) ← expression n ts
      return (some e, ts)

/-- An item of a display: an expression that may bind a name, or a starred one. -/
def displayItem : Nat → List Token → Option (Tree × List Token)
  | 0, _ => none
  | n + 1, ts =>
    match ts with
    | .op "*" :: rest => do
      let (e, ts) ← binary n 1 rest
      return (.starred e, ts)
    | ts => namedExpression n ts

/-- Items between commas up to a closing bracket, in reverse, after `acc`. -/
def displayItems : Nat → String → List Tree → List Token → Option (List Tree × List Token)
  | 0, _, _, _ => none
  | n + 1, closing, acc, ts =>
    match ts with
    | .op o :: rest =>
      if o == closing then some (acc, rest) else displayMore n closing acc ts
    | ts => displayMore n closing acc ts

/-- One more item of a display and what follows it. -/
def displayMore : Nat → String → List Tree → List Token → Option (List Tree × List Token)
  | 0, _, _, _ => none
  | n + 1, closing, acc, ts => do
    let (t, ts) ← displayItem n ts
    match ts with
    | .op "," :: rest => displayItems n closing (t :: acc) rest
    | .op o :: rest => if o == closing then some (t :: acc, rest) else none
    | _ => none

/-- A name, a constant, or something in brackets. -/
def atom : Nat → List Token → Option (Tree × List Token)
  | 0, _ => none
  | n + 1, ts =>
    match ts with
    | .name "True" :: rest => some (.const (.bool true), rest)
    | .name "False" :: rest => some (.const (.bool false), rest)
    | .name "None" :: rest => some (.const .null, rest)
    | .name v :: rest => if keywords.contains v then none else some (.name v, rest)
    | .number c :: rest => some (.const c, rest)
    | .quoted q :: rest =>
      let (qs, ts) := quotedRun rest
      (quotedTree n (q :: qs)).map fun t => (t, ts)
    | .op "..." :: rest => some (.const .ellipsis, rest)
    | .op "(" :: rest => round n rest
    | .op "[" :: rest => square n rest
    | .op "\x7b" :: rest => curly n rest
    | _ => none

/-- What follows a round bracket: a group, a tuple, a generator or a yield. -/
def round : Nat → List Token → Option (Tree × List Token)
  | 0, _ => none
  | n + 1, ts =>
    if startsOp ")" ts then some (.tuple [], ts.drop 1)
    else if startsWord "yield" ts then do
      let (t, ts) ← yieldExpression n (ts.drop 1)
      let ts ← expectOp ")" ts
      return (t, ts)
    else do
      let (t, ts) ← displayItem n ts
      let starred := match t with
        | .starred _ => true
        | _ => false
      match ts with
      | .op "," :: rest => do
        let (items, ts) ← displayItems n ")" [t] rest
        return (.tuple items.reverse, ts)
      | .op ")" :: rest => if starred then none else some (t, rest)
      | ts =>
        if startsClause ts && !starred then do
          let (cs, ts) ← clauses n ts
          let ts ← expectOp ")" ts
          return (.comprehension .generator [t] cs, ts)
        else none

/-- What follows the word `yield`. -/
def yieldExpression : Nat → List Token → Option (Tree × List Token)
  | 0, _ => none
  | n + 1, ts =>
    if startsWord "from" ts then do
      let (t, ts) ← expression n (ts.drop 1)
      return (.yieldFrom t, ts)
    else if startsOp ")" ts then some (.yield none, ts)
    else do
      let (t, ts) ← starExpressions n [] ts
      return (.yield (some t), ts)

/-- Expressions between commas, starred ones among them, up to a round bracket or the end; several,
or one followed by a comma, make a tuple. -/
def starExpressions : Nat → List Tree → List Token → Option (Tree × List Token)
  | 0, _, _ => none
  | n + 1, acc, ts =>
    if !acc.isEmpty && (startsOp ")" ts || ts.isEmpty) then some (.tuple acc.reverse, ts)
    else do
      let (t, ts) ← match ts with
        | .op "*" :: rest => do
          let (e, ts) ← binary n 1 rest
          pure (.starred e, ts)
        | ts => expression n ts
      if startsOp "," ts then starExpressions n (t :: acc) (ts.drop 1)
      else if acc.isEmpty then some (t, ts)
      else some (.tuple (t :: acc).reverse, ts)

/-- What follows a square bracket: a list or a comprehension. -/
def square : Nat → List Token → Option (Tree × List Token)
  | 0, _ => none
  | n + 1, ts =>
    if startsOp "]" ts then some (.list [], ts.drop 1)
    else do
      let (t, ts) ← displayItem n ts
      match ts with
      | .op "," :: rest => do
        let (items, ts) ← displayItems n "]" [t] rest
        return (.list items.reverse, ts)
      | .op "]" :: rest => some (.list [t], rest)
      | ts =>
        match t with
        | .starred _ => none
        | t =>
          if startsClause ts then do
            let (cs, ts) ← clauses n ts
            let ts ← expectOp "]" ts
            return (.comprehension .list [t] cs, ts)
          else none

/-- What follows a curly bracket: a dictionary, a set or a comprehension. -/
def curly : Nat → List Token → Option (Tree × List Token)
  | 0, _ => none
  | n + 1, ts =>
    if startsOp "\x7d" ts then some (.dict [], ts.drop 1)
    else if startsOp "**" ts then dictEntries n [] ts
    else do
      let (t, after) ← displayItem n ts
      match t, after with
      | .starred _, .op ":" :: _ => none
      | k, .op ":" :: rest => do
        let (v, after) ← expression n rest
        if startsBinding ts then none
        else if startsClause after then
          let (cs, after) ← clauses n after
          let after ← expectOp "\x7d" after
          return (.comprehension .dict [k, v] cs, after)
        else dictEntries n [] ts
      | t, .op "," :: rest => do
        let (items, ts) ← displayItems n "\x7d" [t] rest
        return (.set items.reverse, ts)
      | t, .op "\x7d" :: rest => some (.set [t], rest)
      | .starred _, _ => none
      | t, after =>
        if startsClause after then do
          let (cs, after) ← clauses n after
          let after ← expectOp "\x7d" after
          return (.comprehension .set [t] cs, after)
        else none

/-- The entries of a dictionary up to its closing bracket, in reverse after `acc`. -/
def dictEntries : Nat → List (Option Tree × Tree) → List Token → Option (Tree × List Token)
  | 0, _, _ => none
  | n + 1, acc, ts =>
    if startsOp "\x7d" ts then some (.dict acc.reverse, ts.drop 1)
    else do
      let (entry, ts) ←
        if startsOp "**" ts then do
          let (v, ts) ← binary n 1 (ts.drop 1)
          pure ((none, v), ts)
        else do
          let (k, ts) ← expression n ts
          let ts ← expectOp ":" ts
          let (v, ts) ← expression n ts
          pure ((some k, v), ts)
      match ts with
      | .op "," :: rest => dictEntries n (entry :: acc) rest
      | .op "\x7d" :: rest => some (.dict (entry :: acc).reverse, rest)
      | _ => none

/-- The clauses of a comprehension. -/
def clauses : Nat → List Token → Option (List (Bool × List Tree) × List Token)
  | 0, _ => none
  | n + 1, ts =>
    if startsClause ts then do
      let async := startsWord "async" ts
      let ts ← expectWord "for" (if async then ts.drop 1 else ts)
      let (target, ts) ← targets n [] ts
      let ts ← expectWord "in" ts
      let (source, ts) ← disjunction n ts
      let (conditions, ts) ← conditions n ts
      let (more, ts) ← clauses n ts
      return ((async, target :: source :: conditions) :: more, ts)
    else some ([], ts)

/-- The conditions of a clause. -/
def conditions : Nat → List Token → Option (List Tree × List Token)
  | 0, _ => none
  | n + 1, ts =>
    if startsWord "if" ts then do
      let (t, ts) ← disjunction n (ts.drop 1)
      let (more, ts) ← conditions n ts
      return (t :: more, ts)
    else some ([], ts)

/-- The targets of a clause, in reverse after `acc`. -/
def targets : Nat → List Tree → List Token → Option (Tree × List Token)
  | 0, _, _ => none
  | n + 1, acc, ts =>
    if !acc.isEmpty && startsWord "in" ts then some (.tuple acc.reverse, ts)
    else do
      let (t, ts) ← match ts with
        | .op "*" :: rest => do
          let (e, ts) ← primary n rest
          pure (.starred e, ts)
        | ts => primary n ts
      if !isTarget t then none
      else if startsOp "," ts then targets n (t :: acc) (ts.drop 1)
      else if acc.isEmpty then some (t, ts)
      else some (.tuple (t :: acc).reverse, ts)

/-- A lambda after its word. -/
def lambda : Nat → List Token → Option (Tree × List Token)
  | 0, _ => none
  | n + 1, ts => do
    let (s, ts) ← parameters n {} ts
    let (body, ts) ← expression n ts
    return (.lambda s.params s.defaults.reverse body, ts)

/-- The parameters of a lambda up to its colon. -/
def parameters : Nat → ParamScan → List Token → Option (ParamScan × List Token)
  | 0, _, _ => none
  | n + 1, s, ts =>
    let next (s : ParamScan) (ts : List Token) : Option (ParamScan × List Token) :=
      match ts with
      | .op "," :: rest => parameters n s rest
      | .op ":" :: rest => if s.bare then none else some (s, rest)
      | _ => none
    if s.params.keywordRest.isSome then (expectOp ":" ts).map fun ts => (s, ts)
    else match ts with
    | .op ":" :: rest => if s.bare then none else some (s, rest)
    | .op "/" :: rest =>
      if s.star || !s.params.positionalOnly.isEmpty || s.params.positional.isEmpty then none
      else next { s with params :=
        { s.params with positionalOnly := s.params.positional, positional := [] } } rest
    | .op "**" :: rest =>
      if s.bare then none
      else do
        let (v, ts) ← nameToken rest
        next { s with params := { s.params with keywordRest := some v } } ts
    | .op "*" :: rest =>
      if s.star then none
      else match rest with
        | .op "," :: _ => next { s with star := true, bare := true } rest
        | rest => do
          let (v, ts) ← nameToken rest
          next { s with star := true, params := { s.params with rest := some v } } ts
    | ts => do
      let (v, ts) ← nameToken ts
      let (default?, ts) ←
        if startsOp "=" ts then do
          let (e, ts) ← expression n (ts.drop 1)
          pure (some e, ts)
        else pure (none, ts)
      let entry := (v, default?.isSome)
      let defaults := match default? with
        | some e => e :: s.defaults
        | none => s.defaults
      if s.star then
        next { s with defaults, bare := false, params :=
          { s.params with keywordOnly := s.params.keywordOnly ++ [entry] } } ts
      else if default?.isNone && (s.params.positionalOnly ++ s.params.positional).any Prod.snd then
        none
      else
        next { s with defaults, params :=
          { s.params with positional := s.params.positional ++ [entry] } } ts

/-- The tree of quoted texts side by side. -/
def quotedTree : Nat → List Quoted → Option Tree
  | 0, _ => none
  | n + 1, qs =>
    if qs.any fun q => q.has 'b' then
      if qs.all fun q => q.has 'b' then do
        let parts ← qs.mapM decodeBytes?
        return .const (.bytes parts.flatten)
      else none
    else
      let marked := (qs.head?.map fun q => q.letters == ['u']).getD false
      if qs.any fun q => q.has 'f' then do
        let parts ← quotedParts n qs
        return .joined (mergeParts parts)
      else do
        let parts ← qs.mapM fun q => decodeText? (q.has 'r') q.body
        return .const (.str (String.ofList parts.flatten) marked)

/-- The parts of quoted texts side by side, some of which hold expressions. -/
def quotedParts : Nat → List Quoted → Option (List Tree)
  | 0, _ => none
  | _ + 1, [] => some []
  | n + 1, q :: qs => do
    let raw := q.has 'r'
    let parts ←
      if q.has 'f' then do
        let ps ← pieces? true (q.body.length + 1) [] q.body
        pieceTrees n raw 0 ps
      else do
        let cs ← decodeText? raw q.body
        pure [.const (.str (String.ofList cs) false)]
    let more ← quotedParts n qs
    return parts ++ more

/-- The trees of the pieces of a text with expressions; formats nest at most once. -/
def pieceTrees : Nat → Bool → Nat → List Piece → Option (List Tree)
  | 0, _, _, _ => none
  | _ + 1, _, _, [] => some []
  | n + 1, raw, depth, p :: ps => do
    let parts ← match p with
      | .chars cs => do
        let cs ← decodeText? raw cs
        pure [.const (.str (String.ofList cs) false)]
      | .hole source shown conversion format => do
        if depth ≥ 2 then none
        let ts ← tokens? ('(' :: source ++ [')'])
        let (value, _) ← starExpressions n [] ts
        let spec ← match format with
          | none => pure none
          | some cs => do
            let ps ← pieces? false (cs.length + 1) [] cs
            let ts ← pieceTrees n raw (depth + 1) ps
            pure (some (Tree.joined (mergeParts ts)))
        let conversion := if shown.isSome && conversion.isNone && spec.isNone then some 'r'
          else conversion
        let front := match shown with
          | some cs => [Tree.const (.str (String.ofList cs) false)]
          | none => []
        pure (front ++ [.formatted value conversion spec])
    let more ← pieceTrees n raw depth ps
    return parts ++ more

end

/-- Expressions between commas that make up a whole text, in reverse after `acc`. -/
def wholeText : Nat → List Tree → List Token → Option Tree
  | 0, _, _ => none
  | n + 1, acc, ts =>
    let isEnd (ts : List Token) : Bool := ts.all fun t => match t with
      | .lineEnd => true
      | _ => false
    if !acc.isEmpty && isEnd ts then some (.tuple acc.reverse)
    else do
      let (t, ts) ← expression (40 * ts.length + 40) ts
      if startsOp "," ts then wholeText n (t :: acc) (ts.drop 1)
      else if isEnd ts then some (if acc.isEmpty then t else .tuple (t :: acc).reverse)
      else none

/-- The tree of a text, or nothing when it is no expression. -/
def parse? (source : String) : Option Tree := do
  let cs := source.toList
  if cs.contains '\x00' then none
  let ts ← tokens? cs
  wholeText (ts.length + 1) [] ts

end Patchbay.Expr
