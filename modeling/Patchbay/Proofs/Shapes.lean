import Patchbay.Expr.Whitelist
import Patchbay.Expr.Parser

/-!
# Where slices stand

A slice is no expression: it stands in a subscript only, alone or among several subscripts between commas.
The trees that texts are parsed into are so formed. Nothing is asked of the constructs that no expression may
use, because a tree that holds one of them is refused as it is.

Contents:
* `Tree.isForeign`: the constructs that no expression may use.
* `Tree.Formed`: slices stand in subscripts only; `Tree.Subscript`, `Tree.Index`: what stands in them.
* `Gives`: what a parser yields has a property, if it yields anything.

Results:
* `formed_of_parse?`: the tree of a text is so formed.
-/

namespace Patchbay.Expr

/-- Whether a tree is of a construct that no expression may use. -/
def Tree.isForeign : Tree → Bool
  | .set _ | .starred _ | .attribute _ _ | .lambda _ _ _ | .comprehension _ _ _ | .await _ | .yield _
  | .yieldFrom _ | .named _ _ | .joined _ | .formatted _ _ _ => true
  | _ => false

mutual

/-- Whether slices stand in subscripts only. -/
inductive Tree.Formed : Tree → Prop
  | const (c : Constant) : (Tree.const c).Formed
  | name (id : String) : (Tree.name id).Formed
  | binary {op : BinaryOp} {l r : Tree} : l.Formed → r.Formed → (Tree.binary op l r).Formed
  | unary {op : UnaryOp} {e : Tree} : e.Formed → (Tree.unary op e).Formed
  | logic {both : Bool} {es : List Tree} : (∀ e ∈ es, e.Formed) → (Tree.logic both es).Formed
  | compare {l : Tree} {rest : List (CompareOp × Tree)} :
    l.Formed → (∀ c ∈ rest, c.2.Formed) → (Tree.compare l rest).Formed
  | choice {test body orelse : Tree} :
    test.Formed → body.Formed → orelse.Formed → (Tree.choice test body orelse).Formed
  | subscript {v i : Tree} : v.Formed → i.Index → (Tree.subscript v i).Formed
  | list {es : List Tree} : (∀ e ∈ es, e.Formed) → (Tree.list es).Formed
  | tuple {es : List Tree} : (∀ e ∈ es, e.Formed) → (Tree.tuple es).Formed
  | dict {es : List (Option Tree × Tree)} :
    (∀ e ∈ es, ∀ k, e.1 = some k → k.Formed) → (∀ e ∈ es, e.2.Formed) → (Tree.dict es).Formed
  | call {f : Tree} {args : List Tree} {names : List (Option String)} {values : List Tree} :
    (∀ e ∈ args, e.Formed) → (Tree.call f args names values).Formed
  | foreign {t : Tree} : t.isForeign = true → t.Formed

/-- Whether a tree is one subscript: an expression or a slice. -/
inductive Tree.Subscript : Tree → Prop
  | plain {t : Tree} : t.Formed → t.Subscript
  | slice {lo hi step : Option Tree} : (∀ e, lo = some e → e.Formed) → (∀ e, hi = some e → e.Formed) →
    (∀ e, step = some e → e.Formed) → (Tree.slice lo hi step).Subscript

/-- Whether a tree stands between the brackets of a subscript: one subscript, or several. -/
inductive Tree.Index : Tree → Prop
  | one {t : Tree} : t.Subscript → t.Index
  | several {ts : List Tree} : (∀ t ∈ ts, t.Subscript) → (Tree.tuple ts).Index

end

/-! ## What parsers yield -/

/-- Whether what a parser yields has a property, if it yields anything. -/
def Gives {α : Type} (P : α → Prop) (o : Option α) : Prop := ∀ a, o = some a → P a

namespace Gives

variable {α β : Type} {P : α → Prop} {Q : β → Prop}

theorem fail : Gives P none := fun _ h => nomatch h

theorem give {a : α} (h : P a) : Gives P (some a) := fun _ ha => Option.some.inj ha ▸ h

theorem bind {o : Option α} {k : α → Option β} (h : Gives P o) (hk : ∀ a, P a → Gives Q (k a)) :
    Gives Q (o >>= k) := by
  cases o with
  | none => exact fail
  | some a => exact hk a (h a rfl)

/-- What comes of a result of which nothing is known. -/
theorem whatever {o : Option α} {k : α → Option β} (hk : ∀ a, Gives Q (k a)) : Gives Q (o >>= k) :=
  bind (P := fun _ => True) (fun _ _ => trivial) fun a _ => hk a

theorem map {o : Option α} {f : α → β} (h : Gives P o) (hf : ∀ a, P a → Q (f a)) : Gives Q (o.map f) := by
  cases o with
  | none => exact fail
  | some a => exact give (hf a (h a rfl))

end Gives

/-- Whether all trees are formed. -/
def AllFormed (ts : List Tree) : Prop := ∀ t ∈ ts, t.Formed

theorem AllFormed.nil : AllFormed [] := fun _ h => nomatch h

theorem AllFormed.cons {t : Tree} {ts : List Tree} (h : t.Formed) (hs : AllFormed ts) : AllFormed (t :: ts) :=
  List.forall_mem_cons.mpr ⟨h, hs⟩

theorem AllFormed.reverse {ts : List Tree} (h : AllFormed ts) : AllFormed ts.reverse :=
  fun t ht => h t (List.mem_reverse.mp ht)

/-- Whether all entries of a dictionary are formed. -/
def EntriesFormed (es : List (Option Tree × Tree)) : Prop :=
  ∀ e ∈ es, (∀ k, e.1 = some k → k.Formed) ∧ e.2.Formed

theorem EntriesFormed.dict {es : List (Option Tree × Tree)} (h : EntriesFormed es) : (Tree.dict es).Formed :=
  .dict (fun e he => (h e he).1) fun e he => (h e he).2

theorem EntriesFormed.reverse {es : List (Option Tree × Tree)} (h : EntriesFormed es) : EntriesFormed es.reverse :=
  fun e he => h e (List.mem_reverse.mp he)

/-- What the functions of the parser yield at a bound on the number of calls. -/
structure Forms (n : Nat) : Prop where
  expression (ts) : Gives (·.1.Formed) (expression n ts)
  namedExpression (ts) : Gives (·.1.Formed) (namedExpression n ts)
  disjunction (ts) : Gives (·.1.Formed) (disjunction n ts)
  conjunction (ts) : Gives (·.1.Formed) (conjunction n ts)
  operands (both ts) : Gives (fun r => AllFormed r.1) (operands n both ts)
  inversion (ts) : Gives (·.1.Formed) (inversion n ts)
  comparisons (ts) : Gives (fun r => ∀ c ∈ r.1, Tree.Formed c.2) (comparisons n ts)
  binary (strength ts) : Gives (·.1.Formed) (binary n strength ts)
  binaryRest (strength ts) {left} : left.Formed → Gives (·.1.Formed) (binaryRest n strength left ts)
  factor (ts) : Gives (·.1.Formed) (factor n ts)
  power (ts) : Gives (·.1.Formed) (power n ts)
  primary (ts) : Gives (·.1.Formed) (primary n ts)
  trailers (ts) {t} : t.Formed → Gives (·.1.Formed) (trailers n t ts)
  arguments (func names values spread ts) {args} : AllFormed args →
    Gives (·.1.Formed) (arguments n func args names values spread ts)
  subscripts (ts) {acc : List Tree} : (∀ t ∈ acc, t.Subscript) → Gives (·.1.Index) (subscripts n acc ts)
  subscriptItem (ts) : Gives (·.1.Subscript) (subscriptItem n ts)
  sliceRest (ts) {lower : Option Tree} : (∀ e, lower = some e → e.Formed) →
    Gives (·.1.Subscript) (sliceRest n lower ts)
  sliceBound (ts) : Gives (fun r => ∀ e, r.1 = some e → Tree.Formed e) (sliceBound n ts)
  displayItem (ts) : Gives (·.1.Formed) (displayItem n ts)
  displayItems (closing ts) {acc} : AllFormed acc → Gives (fun r => AllFormed r.1) (displayItems n closing acc ts)
  displayMore (closing ts) {acc} : AllFormed acc → Gives (fun r => AllFormed r.1) (displayMore n closing acc ts)
  atom (ts) : Gives (·.1.Formed) (atom n ts)
  round (ts) : Gives (·.1.Formed) (round n ts)
  yieldExpression (ts) : Gives (·.1.Formed) (yieldExpression n ts)
  square (ts) : Gives (·.1.Formed) (square n ts)
  curly (ts) : Gives (·.1.Formed) (curly n ts)
  dictEntries (ts) {acc} : EntriesFormed acc → Gives (·.1.Formed) (dictEntries n acc ts)
  lambda (ts) : Gives (·.1.Formed) (lambda n ts)
  quotedTree (qs) : Gives Tree.Formed (quotedTree n qs)

namespace Forms

open Gives

theorem zero : Forms 0 := by
  constructor <;> intros <;> exact fail

variable {n : Nat} (ih : Forms n)

include ih

theorem expression_succ (ts : List Token) : Gives (·.1.Formed) (Expr.expression (n + 1) ts) := by
  unfold Expr.expression
  split
  · exact ih.lambda _
  · refine (ih.disjunction ts).bind fun (body, ts) hbody => ?_
    dsimp only
    split
    · refine (ih.disjunction _).bind fun (test, ts) htest => whatever fun ts => ?_
      exact (ih.expression ts).bind fun (orelse, ts) horelse => give (.choice htest hbody horelse)
    · exact give hbody

theorem namedExpression_succ (ts : List Token) : Gives (·.1.Formed) (Expr.namedExpression (n + 1) ts) := by
  unfold Expr.namedExpression
  split
  · split
    · exact fail
    · exact whatever fun _ => give (.foreign rfl)
  · exact ih.expression _

theorem disjunction_succ (ts : List Token) : Gives (·.1.Formed) (Expr.disjunction (n + 1) ts) := by
  unfold Expr.disjunction
  refine (ih.conjunction ts).bind fun (t, ts) ht => (ih.operands _ _).bind fun (more, ts) hmore => give ?_
  dsimp only
  split
  · exact ht
  · exact .logic (AllFormed.cons ht hmore)

theorem conjunction_succ (ts : List Token) : Gives (·.1.Formed) (Expr.conjunction (n + 1) ts) := by
  unfold Expr.conjunction
  refine (ih.inversion ts).bind fun (t, ts) ht => (ih.operands _ _).bind fun (more, ts) hmore => give ?_
  dsimp only
  split
  · exact ht
  · exact .logic (AllFormed.cons ht hmore)

theorem operands_succ (both : Bool) (ts : List Token) :
    Gives (fun r => AllFormed r.1) (Expr.operands (n + 1) both ts) := by
  have hmore (r : Tree × List Token) (h : r.1.Formed) : Gives (fun r => AllFormed r.1)
      (Expr.operands n both r.2 >>= fun more => some (r.1 :: more.1, more.2)) :=
    (ih.operands _ _).bind fun more hmore => give (.cons h hmore)
  unfold Expr.operands
  cases both with
  | true =>
    simp only [↓reduceIte]
    split
    · exact (ih.inversion _).bind hmore
    · exact give .nil
  | false =>
    simp only [Bool.false_eq_true, ↓reduceIte]
    split
    · exact (ih.conjunction _).bind hmore
    · exact give .nil

theorem inversion_succ (ts : List Token) : Gives (·.1.Formed) (Expr.inversion (n + 1) ts) := by
  unfold Expr.inversion
  split
  · exact (ih.inversion _).bind fun (t, ts) ht => give (.unary ht)
  · refine (ih.binary _ _).bind fun (left, ts) hleft => (ih.comparisons _).bind fun (rest, ts) hrest => give ?_
    dsimp only
    split
    · exact hleft
    · exact .compare hleft hrest

theorem comparisons_succ (ts : List Token) :
    Gives (fun r => ∀ c ∈ r.1, Tree.Formed c.2) (Expr.comparisons (n + 1) ts) := by
  unfold Expr.comparisons
  split
  · exact give fun _ h => nomatch h
  · refine (ih.binary _ _).bind fun (t, ts) ht => (ih.comparisons _).bind fun (more, ts) hmore => give ?_
    exact List.forall_mem_cons.mpr ⟨ht, hmore⟩

theorem binary_succ (strength : Nat) (ts : List Token) : Gives (·.1.Formed) (Expr.binary (n + 1) strength ts) := by
  unfold Expr.binary
  exact (ih.factor ts).bind fun (left, ts) hleft => ih.binaryRest _ _ hleft

theorem binaryRest_succ (strength : Nat) (ts : List Token) {left : Tree} (hleft : left.Formed) :
    Gives (·.1.Formed) (Expr.binaryRest (n + 1) strength left ts) := by
  unfold Expr.binaryRest
  split
  · split
    · split
      · exact (ih.binary _ _).bind fun (right, ts) hright => ih.binaryRest _ _ (.binary hleft hright)
      · exact give hleft
    · exact give hleft
  · exact give hleft

theorem factor_succ (ts : List Token) : Gives (·.1.Formed) (Expr.factor (n + 1) ts) := by
  unfold Expr.factor
  split
  · split
    · exact (ih.factor _).bind fun (t, ts) ht => give (.unary ht)
    · exact ih.power _
  · exact ih.power _

/-- What comes after a base: perhaps a power. -/
theorem raised {base : Tree} (hbase : base.Formed) (ts : List Token) :
    Gives (·.1.Formed) (if startsOp "**" ts then do
      let (e, ts) ← Expr.factor n (ts.drop 1)
      return (Tree.binary .pow base e, ts)
    else return (base, ts)) := by
  split
  · exact (ih.factor _).bind fun r he => give (.binary hbase he)
  · exact give hbase

theorem power_succ (ts : List Token) : Gives (·.1.Formed) (Expr.power (n + 1) ts) := by
  unfold Expr.power
  dsimp only
  split
  · exact whatever fun r => ih.raised (.foreign rfl) r.2
  · exact (ih.primary ts).bind fun r hbase => ih.raised hbase r.2

theorem primary_succ (ts : List Token) : Gives (·.1.Formed) (Expr.primary (n + 1) ts) := by
  unfold Expr.primary
  exact (ih.atom ts).bind fun (t, ts) ht => ih.trailers _ ht

theorem trailers_succ (ts : List Token) {t : Tree} (ht : t.Formed) :
    Gives (·.1.Formed) (Expr.trailers (n + 1) t ts) := by
  unfold Expr.trailers
  split
  · exact whatever fun (attr, ts) => ih.trailers _ (.foreign rfl)
  · exact (ih.arguments _ _ _ _ _ .nil).bind fun (call, ts) hcall => ih.trailers _ hcall
  · exact (ih.subscripts _ (List.forall_mem_nil _)).bind fun (index, ts) hindex => ih.trailers _ (.subscript ht hindex)
  · exact give ht

/-- What comes after an argument: the closing bracket, or a comma and more of them. -/
theorem afterArgument (func : Tree) (names : List (Option String)) (values : List Tree) (spread : Bool)
    (ts : List Token) {args : List Tree} (hargs : AllFormed args) : Gives (·.1.Formed) (match ts with
      | .op ")" :: rest => some (.call func args.reverse names.reverse values.reverse, rest)
      | .op "," :: rest => Expr.arguments n func args names values spread rest
      | _ => none) := by
  split
  · exact give (.call hargs.reverse)
  · exact ih.arguments _ _ _ _ _ hargs
  · exact fail

theorem arguments_succ (func : Tree) (names : List (Option String)) (values : List Tree) (spread : Bool)
    (ts : List Token) {args : List Tree} (hargs : AllFormed args) :
    Gives (·.1.Formed) (Expr.arguments (n + 1) func args names values spread ts) := by
  unfold Expr.arguments
  dsimp only
  split
  · exact give (.call hargs.reverse)
  · exact whatever fun _ => ih.afterArgument _ _ _ _ _ hargs
  · split
    · exact fail
    · exact whatever fun _ => ih.afterArgument _ _ _ _ _ (.cons (.foreign rfl) hargs)
  · split
    · exact fail
    · exact whatever fun _ => ih.afterArgument _ _ _ _ _ hargs
  · split
    · exact fail
    · refine (ih.namedExpression _).bind fun r he => ?_
      split
      · split
        · exact fail
        · exact whatever fun _ => whatever fun _ => give (.call (AllFormed.cons (.foreign rfl) .nil))
      · exact ih.afterArgument _ _ _ _ _ (.cons he hargs)

/-- What comes after a subscript: a comma and more of them, or the closing bracket. -/
theorem afterSubscript {t : Tree} (ht : t.Subscript) (starred : Bool) (ts : List Token) {acc : List Tree}
    (hacc : ∀ t ∈ acc, t.Subscript) : Gives (·.1.Index) (match ts with
      | .op "," :: rest => Expr.subscripts n (t :: acc) rest
      | .op "]" :: rest => if acc.isEmpty && !starred then some (t, rest) else some (.tuple (t :: acc).reverse, rest)
      | _ => none) := by
  have hall : ∀ u ∈ t :: acc, u.Subscript := List.forall_mem_cons.mpr ⟨ht, hacc⟩
  split
  · exact ih.subscripts _ hall
  · split
    · exact give (.one ht)
    · exact give (.several fun u hu => hall u (List.mem_reverse.mp hu))
  · exact fail

theorem subscripts_succ (ts : List Token) {acc : List Tree} (hacc : ∀ t ∈ acc, t.Subscript) :
    Gives (·.1.Index) (Expr.subscripts (n + 1) acc ts) := by
  unfold Expr.subscripts
  split
  · split
    · exact fail
    · exact give (.several fun u hu => hacc u (List.mem_reverse.mp hu))
  · dsimp only
    split
    · exact whatever fun _ => ih.afterSubscript (.plain (.foreign rfl)) _ _ hacc
    · exact (ih.subscriptItem _).bind fun _ ht => ih.afterSubscript ht _ _ hacc

theorem subscriptItem_succ (ts : List Token) : Gives (·.1.Subscript) (Expr.subscriptItem (n + 1) ts) := by
  unfold Expr.subscriptItem
  split
  · exact ih.sliceRest _ fun _ h => nomatch h
  · refine (ih.namedExpression ts).bind fun (e, ts) he => ?_
    dsimp only
    split
    · split
      · exact fail
      · exact ih.sliceRest _ fun _ h => Option.some.inj h ▸ he
    · exact give (.plain he)

theorem sliceRest_succ (ts : List Token) {lower : Option Tree} (hlower : ∀ e, lower = some e → e.Formed) :
    Gives (·.1.Subscript) (Expr.sliceRest (n + 1) lower ts) := by
  unfold Expr.sliceRest
  refine (ih.sliceBound ts).bind fun (upper, ts) hupper => ?_
  dsimp only
  split
  · exact (ih.sliceBound _).bind fun (step, ts) hstep => give (.slice hlower hupper hstep)
  · exact give (.slice hlower hupper fun _ h => nomatch h)

theorem sliceBound_succ (ts : List Token) :
    Gives (fun r => ∀ e, r.1 = some e → Tree.Formed e) (Expr.sliceBound (n + 1) ts) := by
  unfold Expr.sliceBound
  split
  · exact give fun _ h => nomatch h
  · exact (ih.expression ts).bind fun (e, ts) he => give fun _ h => Option.some.inj h ▸ he

theorem displayItem_succ (ts : List Token) : Gives (·.1.Formed) (Expr.displayItem (n + 1) ts) := by
  unfold Expr.displayItem
  split
  · exact whatever fun _ => give (.foreign rfl)
  · exact ih.namedExpression _

theorem displayItems_succ (closing : String) (ts : List Token) {acc : List Tree} (hacc : AllFormed acc) :
    Gives (fun r => AllFormed r.1) (Expr.displayItems (n + 1) closing acc ts) := by
  unfold Expr.displayItems
  split
  · split
    · exact give hacc
    · exact ih.displayMore _ _ hacc
  · exact ih.displayMore _ _ hacc

theorem displayMore_succ (closing : String) (ts : List Token) {acc : List Tree} (hacc : AllFormed acc) :
    Gives (fun r => AllFormed r.1) (Expr.displayMore (n + 1) closing acc ts) := by
  unfold Expr.displayMore
  refine (ih.displayItem ts).bind fun (t, ts) ht => ?_
  dsimp only
  split
  · exact ih.displayItems _ _ (.cons ht hacc)
  · split
    · exact give (.cons ht hacc)
    · exact fail
  · exact fail

theorem atom_succ (ts : List Token) : Gives (·.1.Formed) (Expr.atom (n + 1) ts) := by
  unfold Expr.atom
  split
  · exact give (.const _)
  · exact give (.const _)
  · exact give (.const _)
  · split
    · exact fail
    · exact give (.name _)
  · exact give (.const _)
  · exact (ih.quotedTree _).map fun _ h => h
  · exact give (.const _)
  · exact ih.round _
  · exact ih.square _
  · exact ih.curly _
  · exact fail

theorem round_succ (ts : List Token) : Gives (·.1.Formed) (Expr.round (n + 1) ts) := by
  unfold Expr.round
  split
  · exact give (.tuple AllFormed.nil)
  · split
    · exact (ih.yieldExpression _).bind fun (t, ts) ht => whatever fun ts => give ht
    · refine (ih.displayItem ts).bind fun (t, ts) ht => ?_
      dsimp only
      split
      · exact (ih.displayItems _ _ (.cons ht .nil)).bind fun (items, ts) hitems => give (.tuple hitems.reverse)
      · split <;> split
        all_goals first | exact fail | exact give ht
      · split <;> split
        all_goals first | exact fail | exact whatever fun (cs, ts) => whatever fun ts => give (.foreign rfl)

omit ih in
theorem yieldExpression_succ (ts : List Token) : Gives (·.1.Formed) (Expr.yieldExpression (n + 1) ts) := by
  unfold Expr.yieldExpression
  split
  · exact whatever fun _ => give (.foreign rfl)
  · split
    · exact give (.foreign rfl)
    · exact whatever fun _ => give (.foreign rfl)

theorem square_succ (ts : List Token) : Gives (·.1.Formed) (Expr.square (n + 1) ts) := by
  unfold Expr.square
  split
  · exact give (.list AllFormed.nil)
  · refine (ih.displayItem ts).bind fun (t, ts) ht => ?_
    dsimp only
    split
    · exact (ih.displayItems _ _ (.cons ht .nil)).bind fun (items, ts) hitems => give (.list hitems.reverse)
    · exact give (.list (AllFormed.cons ht .nil))
    · split
      · exact fail
      · split
        · exact whatever fun (cs, ts) => whatever fun ts => give (.foreign rfl)
        · exact fail

theorem curly_succ (ts : List Token) : Gives (·.1.Formed) (Expr.curly (n + 1) ts) := by
  have hempty : EntriesFormed [] := fun _ h => nomatch h
  unfold Expr.curly
  split
  · exact give hempty.dict
  · split
    · exact ih.dictEntries _ hempty
    · refine whatever fun (t, after) => ?_
      dsimp only
      split
      · exact fail
      · refine whatever fun (v, after) => ?_
        dsimp only
        split
        · exact fail
        · split
          · exact whatever fun (cs, after) => whatever fun after => give (.foreign rfl)
          · exact ih.dictEntries _ hempty
      · exact whatever fun (items, ts) => give (.foreign rfl)
      · exact give (.foreign rfl)
      · exact fail
      · split
        · exact whatever fun (cs, after) => whatever fun after => give (.foreign rfl)
        · exact fail

/-- What comes after an entry: a comma and more of them, or the closing brace. -/
theorem afterEntry (entry : Option Tree × Tree) (hentry : EntriesFormed [entry]) (ts : List Token)
    {acc : List (Option Tree × Tree)} (hacc : EntriesFormed acc) : Gives (·.1.Formed) (match ts with
      | .op "," :: rest => Expr.dictEntries n (entry :: acc) rest
      | .op "\x7d" :: rest => some (.dict (entry :: acc).reverse, rest)
      | _ => none) := by
  have hall : EntriesFormed (entry :: acc) :=
    List.forall_mem_cons.mpr ⟨hentry entry List.mem_cons_self, hacc⟩
  split
  · exact ih.dictEntries _ hall
  · exact give (EntriesFormed.dict hall.reverse)
  · exact fail

theorem dictEntries_succ (ts : List Token) {acc : List (Option Tree × Tree)} (hacc : EntriesFormed acc) :
    Gives (·.1.Formed) (Expr.dictEntries (n + 1) acc ts) := by
  unfold Expr.dictEntries
  split
  · exact give (EntriesFormed.dict hacc.reverse)
  · dsimp only
    split
    · refine (ih.binary _ _).bind fun r hv => ih.afterEntry (none, r.1) ?_ r.2 hacc
      exact List.forall_mem_singleton.mpr ⟨fun _ h => absurd h (Option.some_ne_none _).symm, hv⟩
    · refine (ih.expression ts).bind fun k hk => whatever fun ts => ?_
      refine (ih.expression ts).bind fun r hv => ih.afterEntry (some k.1, r.1) ?_ r.2 hacc
      exact List.forall_mem_singleton.mpr ⟨fun _ h => Option.some.inj h ▸ hk, hv⟩

omit ih in
theorem lambda_succ (ts : List Token) : Gives (·.1.Formed) (Expr.lambda (n + 1) ts) := by
  unfold Expr.lambda
  exact whatever fun _ => whatever fun _ => give (.foreign rfl)

omit ih in
theorem quotedTree_succ (qs : List Quoted) : Gives Tree.Formed (Expr.quotedTree (n + 1) qs) := by
  unfold Expr.quotedTree
  split
  · split
    · exact whatever fun _ => give (.const _)
    · exact fail
  · dsimp only
    split
    · exact whatever fun _ => give (.foreign rfl)
    · exact whatever fun _ => give (.const _)

theorem succ : Forms (n + 1) where
  expression := ih.expression_succ
  namedExpression := ih.namedExpression_succ
  disjunction := ih.disjunction_succ
  conjunction := ih.conjunction_succ
  operands := ih.operands_succ
  inversion := ih.inversion_succ
  comparisons := ih.comparisons_succ
  binary := ih.binary_succ
  binaryRest strength ts _ := ih.binaryRest_succ strength ts
  factor := ih.factor_succ
  power := ih.power_succ
  primary := ih.primary_succ
  trailers ts _ := ih.trailers_succ ts
  arguments func names values spread ts _ := ih.arguments_succ func names values spread ts
  subscripts ts _ := ih.subscripts_succ ts
  subscriptItem := ih.subscriptItem_succ
  sliceRest ts _ := ih.sliceRest_succ ts
  sliceBound := ih.sliceBound_succ
  displayItem := ih.displayItem_succ
  displayItems closing ts _ := ih.displayItems_succ closing ts
  displayMore closing ts _ := ih.displayMore_succ closing ts
  atom := ih.atom_succ
  round := ih.round_succ
  yieldExpression := yieldExpression_succ
  square := ih.square_succ
  curly := ih.curly_succ
  dictEntries ts _ := ih.dictEntries_succ ts
  lambda := lambda_succ
  quotedTree := quotedTree_succ

omit ih in
theorem all : ∀ n, Forms n
  | 0 => zero
  | n + 1 => (all n).succ

end Forms

/-! ## Whole texts -/

theorem wholeText_formed : ∀ (n : Nat) {acc : List Tree} (ts : List Token), AllFormed acc →
    Gives Tree.Formed (wholeText n acc ts)
  | 0, _, _, _ => Gives.fail
  | n + 1, acc, ts, hacc => by
    unfold wholeText
    dsimp only
    split
    · exact .give (.tuple hacc.reverse)
    · refine ((Forms.all _).expression ts).bind fun (t, ts) ht => ?_
      have hall : AllFormed (t :: acc) := .cons ht hacc
      dsimp only
      split
      · exact wholeText_formed n _ hall
      · split
        · refine .give ?_
          split
          · exact ht
          · exact .tuple hall.reverse
        · exact .fail

/-- In the tree of a text slices stand in subscripts only. -/
theorem formed_of_parse? {source : String} {t : Tree} (h : parse? source = some t) : t.Formed := by
  unfold parse? at h
  dsimp only at h
  split at h
  · cases h
  · exact (Gives.whatever fun ts => wholeText_formed _ ts .nil) t h

end Patchbay.Expr
