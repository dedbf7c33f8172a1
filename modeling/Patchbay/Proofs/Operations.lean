import Patchbay.Expr.Function
import Patchbay.Value.Percent

/-!
# Faults of operations on values

The operations on values fail with faults of operations only: an arithmetic one, a wrong type or value, a
position or a key. None fails like a missing file or a text that is no expression.

Contents:
* `Raises`: what a result raises has a property, with a lemma for each way to make such a result.
* `Operational`: a result that is no other fault.

Results:
* one lemma for each operator, for subscripts, and `Function.operational_apply` for the table.
-/

namespace Patchbay

/-- Whether the error of a result, if it is one, has a property. -/
def Raises {ε α : Type} (P : ε → Prop) (r : Except ε α) : Prop := ∀ e, r = .error e → P e

namespace Raises

variable {ε α β : Type} {P : ε → Prop}

theorem ok (a : α) : Raises P (.ok a) := fun _ h => nomatch h

theorem error {e : ε} (h : P e) : Raises P (.error e : Except ε α) := fun _ he => Except.error.inj he ▸ h

theorem bind {r : Except ε α} {k : α → Except ε β} (h : Raises P r) (hk : ∀ a, Raises P (k a)) :
    Raises P (r >>= k) := by
  cases r with
  | ok a => exact hk a
  | error e => exact error (h e rfl)

theorem ite {c : Prop} [Decidable c] {r r' : Except ε α} (h : Raises P r) (h' : Raises P r') :
    Raises P (if c then r else r') := by
  split
  · exact h
  · exact h'

theorem foldlM {k : β → α → Except ε β} (hk : ∀ b a, Raises P (k b a)) :
    ∀ (xs : List α) (b : β), Raises P (xs.foldlM k b)
  | [], b => ok b
  | x :: xs, b => by
    rw [List.foldlM_cons]
    exact (hk b x).bind (foldlM hk xs)

end Raises

/-- Whether a result is no fault but one of an operation on values. -/
abbrev Operational {α : Type} (r : Except Fault α) : Prop := Raises (fun f => f.kind.isOperational = true) r

namespace Value

open Raises

/-! ## Arithmetic -/

theorem operational_floatOfInt (n : Int) : Operational (floatOfInt n) := by
  unfold floatOfInt
  split
  · exact ok _
  · exact error rfl

theorem operational_widen {onInt : Int → Int → Except Fault Value} {onFloat : Float → Float → Except Fault Value}
    {onComplex : Float × Float → Float × Float → Except Fault Value} (hint : ∀ m n, Operational (onInt m n))
    (hfloat : ∀ x y, Operational (onFloat x y)) (hcomplex : ∀ p q, Operational (onComplex p q)) (a b : Num) :
    Operational (widen onInt onFloat onComplex a b) := by
  cases a <;> cases b <;>
    first
    | exact hint _ _
    | exact hfloat _ _
    | exact hcomplex _ _
    | exact (operational_floatOfInt _).bind fun _ => hfloat _ _
    | exact (operational_floatOfInt _).bind fun _ => hcomplex _ _

theorem operational_add (u v : Value) : Operational (add u v) := by
  unfold add
  split
  · exact ok _
  · exact ok _
  · exact ok _
  · split
    · exact operational_widen (fun _ _ => ok _) (fun _ _ => ok _) (fun _ _ => ok _) _ _
    · exact error rfl

theorem operational_sub (u v : Value) : Operational (sub u v) := by
  unfold sub
  split
  · exact operational_widen (fun _ _ => ok _) (fun _ _ => ok _) (fun _ _ => ok _) _ _
  · exact error rfl

theorem operational_repeated (u : Value) (n : Int) : Operational (u.repeated n) := by
  unfold repeated
  split
  · exact error rfl
  · split <;> first | exact ok _ | exact error rfl

theorem operational_mul (u v : Value) : Operational (mul u v) := by
  unfold mul
  split
  · exact operational_widen (fun _ _ => ok _) (fun _ _ => ok _) (fun _ _ => ok _) _ _
  · repeat' split
    all_goals first | exact operational_repeated _ _ | exact error rfl

theorem operational_complexDiv (a b : Float × Float) : Operational (complexDiv a b) := by
  unfold complexDiv
  repeat' split
  all_goals first | exact ok _ | exact error rfl

theorem operational_div (u v : Value) : Operational (div u v) := by
  unfold div
  split
  · refine operational_widen (fun m n => ?_) (fun x y => ?_)
      (fun p q => (operational_complexDiv p q).bind fun _ => ok _) _ _
    · unfold divInt
      split
      · exact error rfl
      · dsimp only
        split
        · exact error rfl
        · exact ok _
    · split
      · exact error rfl
      · exact ok _
  · exact error rfl

/-- Floor division and its remainder: nothing but a divisor of zero, and complex numbers, is a fault. -/
theorem operational_whole {onInt : Int → Int → Value} {onFloat : Float → Float → Value} (a b : Num) :
    Operational (widen (fun m n => if n == 0 then .error .zeroDivision else .ok (onInt m n))
      (fun x y => if y == 0.0 then .error .zeroDivision else .ok (onFloat x y)) (fun _ _ => .error .type) a b) := by
  refine operational_widen (fun m n => ?_) (fun x y => ?_) (fun _ _ => error rfl) _ _
  · split
    · exact error rfl
    · exact ok _
  · split
    · exact error rfl
    · exact ok _

theorem operational_floorDiv (u v : Value) : Operational (floorDiv u v) := by
  unfold floorDiv
  split
  · exact operational_whole _ _
  · exact error rfl

theorem operational_modNumber (u v : Value) : Operational (modNumber u v) := by
  unfold modNumber
  split
  · exact operational_whole _ _
  · exact error rfl

theorem operational_powFloat (x y : Float) : Operational (powFloat x y) := by
  unfold powFloat
  dsimp only
  repeat' refine Raises.ite ?_ ?_
  all_goals first | exact ok _ | exact error rfl

theorem operational_powComplex (a b : Float × Float) : Operational (powComplex a b) := by
  unfold powComplex
  dsimp only
  repeat' split
  all_goals first
    | exact ok _
    | exact error rfl
    | exact (operational_complexDiv _ _).bind fun _ => ok _

theorem operational_pow (u v : Value) : Operational (pow u v) := by
  unfold pow
  split
  · refine operational_widen (fun m n => ?_) operational_powFloat operational_powComplex _ _
    split
    · exact ok _
    · exact (operational_floatOfInt m).bind fun _ => (operational_floatOfInt n).bind fun _ => operational_powFloat _ _
  · exact error rfl

theorem operational_neg (u : Value) : Operational u.neg := by
  unfold neg
  split <;> first | exact ok _ | exact error rfl

theorem operational_pos (u : Value) : Operational u.pos := by
  unfold pos
  split <;> first | exact ok _ | exact error rfl

theorem operational_abs (u : Value) : Operational u.abs := by
  unfold Value.abs
  dsimp only
  repeat' split
  all_goals first | exact ok _ | exact error rfl

/-! ## Texts -/

theorem operational_intText (n : Int) : Operational (intText n) := by
  rw [intText]
  split
  · exact ok _
  · exact error rfl

mutual

theorem operational_repr : ∀ v : Value, Operational v.repr
  | null | bool _ | float _ | complex _ _ | str _ => by
    unfold repr
    exact ok _
  | int n => by
    unfold repr
    exact operational_intText n
  | list xs => by
    unfold repr
    exact (operational_reprList xs).bind fun _ => ok _
  | tuple xs => by
    unfold repr
    refine (operational_reprList xs).bind fun ps => ?_
    split <;> exact ok _
  | dict es => by
    unfold repr
    exact (operational_reprEntries es).bind fun _ => ok _

theorem operational_reprList : ∀ xs : List Value, Operational (reprList xs)
  | [] => by
    unfold reprList
    exact ok _
  | x :: xs => by
    unfold reprList
    exact (operational_repr x).bind fun _ => (operational_reprList xs).bind fun _ => ok _

theorem operational_reprEntries : ∀ es : List (Value × Value), Operational (reprEntries es)
  | [] => by
    unfold reprEntries
    exact ok _
  | e :: es => by
    unfold reprEntries
    exact (operational_reprEntry e).bind fun _ => (operational_reprEntries es).bind fun _ => ok _

theorem operational_reprEntry : ∀ e : Value × Value, Operational (reprEntry e)
  | (k, v) => by
    unfold reprEntry
    exact (operational_repr k).bind fun _ => (operational_repr v).bind fun _ => ok _

end

theorem operational_toText (v : Value) : Operational v.toText := by
  unfold toText
  split
  · exact ok _
  · exact operational_repr _

theorem operational_worded (text : Except Fault String) : Operational (worded text) := by
  cases text with
  | ok s => exact ok s
  | error f => exact error rfl

/-! ## Items -/

theorem operational_items (v : Value) : Operational v.items := by
  unfold items
  split <;> first | exact ok _ | exact error rfl

theorem operational_size (v : Value) : Operational v.size := by
  unfold size
  split <;> first | exact ok _ | exact error rfl

theorem operational_position (v : Value) : Operational (position v) := by
  unfold position
  split
  · exact ok _
  · exact error rfl

theorem operational_itemAt {α : Type} (xs : List α) (i : Int) : Operational (itemAt xs i) := by
  unfold itemAt
  dsimp only
  repeat' split
  all_goals first | exact ok _ | exact error rfl

theorem operational_item (u k : Value) : Operational (u.item k) := by
  unfold item
  split
  · exact (operational_position k).bind fun _ => (operational_itemAt _ _).bind fun _ => ok _
  · exact (operational_position k).bind fun _ => operational_itemAt _ _
  · exact (operational_position k).bind fun _ => operational_itemAt _ _
  · repeat' split
    all_goals first | exact ok _ | exact error rfl
  · exact error rfl

theorem operational_bound? (v : Value) : Operational (bound? v) := by
  unfold bound?
  split
  · exact ok _
  · exact (operational_position _).bind fun _ => ok _

theorem operational_slice (u lo hi step : Value) : Operational (u.slice lo hi step) := by
  unfold slice
  split
  · exact error rfl
  · refine (operational_bound? step).bind fun s => ?_
    dsimp only
    split
    · exact error rfl
    · refine (operational_bound? lo).bind fun _ => (operational_bound? hi).bind fun _ => ?_
      split <;> first | exact ok _ | exact error rfl

theorem operational_contains (u x : Value) : Operational (u.contains x) := by
  unfold contains
  repeat' split
  all_goals first | exact ok _ | exact error rfl

/-! ## Templates -/

theorem operational_next (a : PercentArgs) : Operational a.next := by
  unfold PercentArgs.next
  split
  · exact ok _
  · exact error rfl

theorem operational_integerDigits (letter : Char) (n : Nat) : Operational (integerDigits letter n) := by
  unfold integerDigits
  split
  · exact ok _
  · exact ok _
  · exact ok _
  · exact (operational_intText _).bind fun _ => ok _

theorem operational_integerArgument (letter : Char) (v : Value) : Operational (integerArgument letter v) := by
  unfold integerArgument
  repeat' split
  all_goals first | exact ok _ | exact error rfl

theorem operational_convertInteger (p : Placeholder) (v : Value) : Operational (convertInteger p v) :=
  (operational_integerArgument _ _).bind fun _ => (operational_integerDigits _ _).bind fun _ => ok _

theorem operational_floatArgument (v : Value) : Operational (floatArgument v) := by
  unfold floatArgument
  repeat' split
  all_goals first | exact ok _ | exact operational_floatOfInt _ | exact error rfl

theorem operational_convertChar (p : Placeholder) (v : Value) : Operational (convertChar p v) := by
  unfold convertChar
  repeat' split
  all_goals first | exact ok _ | exact error rfl

theorem operational_convert (p : Placeholder) (v : Value) : Operational (p.convert v) := by
  unfold Placeholder.convert
  repeat' split
  · exact operational_convertInteger p v
  · exact (operational_floatArgument v).bind fun _ => ok _
  · exact (operational_toText v).bind fun _ => ok _
  · exact (operational_repr v).bind fun _ => ok _
  · exact (operational_repr v).bind fun _ => ok _
  · exact operational_convertChar p v
  · exact error rfl

theorem operational_readCount (a : PercentArgs) (cs : List Char) : Operational (readCount a cs) := by
  unfold readCount
  split
  · refine (operational_next a).bind fun (v, a) => ?_
    dsimp only
    split
    · exact ok _
    · exact error rfl
  · dsimp only
    repeat' split
    all_goals first | exact ok _ | exact error rfl

theorem operational_readSubject (a : PercentArgs) (cs : List Char) : Operational (readSubject a cs) := by
  unfold readSubject
  repeat' split
  · exact error rfl
  · exact error rfl
  · exact (operational_item _ _).bind fun _ => ok _
  · exact ok _

theorem operational_readPrecision (a : PercentArgs) (cs : List Char) : Operational (readPrecision a cs) := by
  unfold readPrecision
  split
  · exact (operational_readCount _ _).bind fun _ => ok _
  · exact ok _

theorem operational_readPlaceholder (a : PercentArgs) (cs : List Char) : Operational (readPlaceholder a cs) := by
  refine (operational_readSubject a cs).bind fun (a, cs) => ?_
  refine (operational_readCount _ _).bind fun (width, a, cs) => ?_
  refine (operational_readPrecision _ _).bind fun (precision, a, cs) => ?_
  dsimp only
  split
  · exact error rfl
  · exact ok _
  · exact (operational_next _).bind fun (v, a) => (operational_convert _ _).bind fun _ => ok _

theorem operational_fillFrom : ∀ (fuel : Nat) (a : PercentArgs) (cs : List Char), Operational (fillFrom fuel a cs)
  | 0, a, _ => ok _
  | _ + 1, a, [] => ok _
  | fuel + 1, a, c :: cs => by
    by_cases hc : c = '%'
    · subst hc
      refine (operational_readPlaceholder a cs).bind fun (s, a, rest) => ?_
      exact Raises.bind (operational_fillFrom fuel a rest) fun (t, a) => ok (s ++ t, a)
    · rw [fillFrom]
      · exact (operational_fillFrom fuel a cs).bind fun (t, a) => ok (c.toString ++ t, a)
      · exact hc

theorem operational_mod (u v : Value) : Operational (mod u v) := by
  unfold mod
  split
  · refine (operational_fillFrom _ _ _).bind fun x => ?_
    dsimp only
    split
    · exact ok _
    · exact error rfl
  · exact operational_modNumber _ _

/-! ## Rounding -/

theorem operational_integerBeside (pick : Binary64.Finite → Int) (x : Float) :
    Operational (integerBeside pick x) := by
  unfold integerBeside
  split <;> first | exact ok _ | exact error rfl

theorem operational_floored (v : Value) : Operational v.floored := by
  unfold floored
  repeat' split
  all_goals first | exact operational_integerBeside _ _ | exact ok _ | exact error rfl

theorem operational_ceiled (v : Value) : Operational v.ceiled := by
  unfold ceiled
  repeat' split
  all_goals first | exact operational_integerBeside _ _ | exact ok _ | exact error rfl

theorem operational_roundFloat (x : Float) (places : Int) : Operational (roundFloat x places) := by
  unfold roundFloat
  dsimp only
  repeat' split
  all_goals first | exact ok _ | exact error rfl

theorem operational_rounded (v : Value) (places : Option Value) : Operational (v.rounded places) := by
  unfold rounded
  repeat' split
  all_goals first
    | exact operational_integerBeside _ _
    | exact operational_roundFloat _ _
    | exact ok _
    | exact error rfl

end Value

namespace Expr

open Raises Value

/-! ## Functions of the table -/

theorem operational_toInteger (v : Value) : Operational (toInteger v) := by
  unfold toInteger
  repeat' split
  all_goals first | exact operational_integerBeside _ _ | exact ok _ | exact error rfl

theorem operational_toIntegerIn (v base : Value) : Operational (toIntegerIn v base) := by
  unfold toIntegerIn
  repeat' split
  all_goals first | exact ok _ | exact error rfl

theorem operational_toFloat (v : Value) : Operational (toFloat v) := by
  unfold toFloat
  repeat' split
  all_goals first | exact operational_floatOfInt _ | exact ok _ | exact error rfl

theorem operational_realOf (v : Value) : Operational (realOf v) := by
  unfold realOf
  split
  · exact error rfl
  · exact operational_toFloat _

theorem operational_candidates (args : List Value) : Operational (candidates args) := by
  unfold candidates
  split <;> first | exact operational_items _ | exact ok _ | exact error rfl

theorem operational_extremeOf (r : Relation) (args : List Value) : Operational (extremeOf r args) := by
  refine (operational_candidates args).bind fun xs => ?_
  repeat' split
  all_goals first | exact ok _ | exact error rfl

theorem operational_sumFrom (start v : Value) : Operational (sumFrom start v) := by
  unfold sumFrom
  refine (operational_items v).bind fun xs => ?_
  split
  · exact error rfl
  · exact foldlM operational_add _ _

theorem operational_onFinite (f : Float → Float) (v : Value) : Operational (onFinite f v) := by
  unfold onFinite
  refine (operational_realOf v).bind fun x => ?_
  split
  · exact error rfl
  · exact ok _

theorem operational_squareRoot (v : Value) : Operational (squareRoot v) := by
  unfold squareRoot
  refine (operational_realOf v).bind fun x => ?_
  split
  · exact error rfl
  · exact ok _

/-- The functions of the table fail with faults of operations only. -/
theorem Function.operational_apply (f : Function) (args : List Value) : Operational (f.apply args) := by
  unfold Function.apply
  split
  · exact operational_extremeOf _ _
  · exact operational_extremeOf _ _
  · exact operational_abs _
  · exact operational_rounded _ _
  · exact operational_rounded _ _
  · exact (operational_size _).bind fun _ => ok _
  · exact ok _
  · exact (operational_toText _).bind fun _ => ok _
  · exact ok _
  · exact operational_toInteger _
  · exact operational_toIntegerIn _ _
  · exact ok _
  · exact (operational_toFloat _).bind fun _ => ok _
  · exact ok _
  · exact ok _
  · exact operational_sumFrom _ _
  · exact operational_sumFrom _ _
  · refine (operational_items _).bind fun _ => ?_
    split
    · exact ok _
    · exact error rfl
  · exact (operational_toText _).bind fun _ => ok _
  · exact (operational_toText _).bind fun _ => ok _
  · exact operational_squareRoot _
  · exact operational_floored _
  · exact operational_ceiled _
  · exact operational_onFinite _ _
  · exact operational_onFinite _ _
  · exact error rfl

end Expr

end Patchbay
