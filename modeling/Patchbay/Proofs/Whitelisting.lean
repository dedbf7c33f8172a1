import Mathlib.Logic.Relation
import Patchbay.Expr.Eval
import Patchbay.Proofs.Operations
import Patchbay.Proofs.Shapes

/-!
# Expressions that passed the check

An expression that passed the check is never refused while it is evaluated. Whatever its evaluation comes to,
all its operators, comparisons and callees stand in the tables, and it ends with a value or with an error of
expressions: a name without a value, a bound that was passed, or the report of a fault of an operation.

There is one way out of this. The report of a missing key shows the key, and a key that holds an integer of
too many digits cannot be shown; then the fault of showing it escapes.

Contents:
* `Tree.operands`, `Tree.Part`: the trees that evaluating a tree may evaluate.
* `Tree.inTables`: the operators and the callee of a tree stand in the tables.
* `Cause.isOfEvaluation`: the errors that are no refusals.

Results:
* `Accepted.operand`: what passed the check has parts that passed it.
* `eval_admitted`: what passed the check is not refused.
* `evaluate_contained`: what evaluating a checked expression comes to; `evaluate_key_escapes`: a fault escapes.
-/

namespace Patchbay.Expr

/-! ## Parts -/

/-- The trees that a subscript is evaluated from: a slice has its bounds. -/
def Tree.bounds : Tree → List Tree
  | .slice lo hi step => lo.toList ++ hi.toList ++ step.toList
  | t => [t]

/-- The trees that are evaluated between the brackets of a subscript. -/
def Tree.indices : Tree → List Tree
  | .tuple ts => ts.flatMap Tree.bounds
  | t => t.bounds

/-- The trees that evaluating a tree may evaluate next. The callee of a call is looked up and not evaluated. -/
def Tree.operands : Tree → List Tree
  | .binary _ l r => [l, r]
  | .unary _ e => [e]
  | .logic _ es => es
  | .compare l rest => l :: rest.map Prod.snd
  | .choice test body orelse => [test, body, orelse]
  | .subscript v i => v :: i.indices
  | .list es => es
  | .tuple es => es
  | .dict es => es.flatMap fun e => e.1.toList ++ [e.2]
  | .call _ args _ _ => args
  | _ => []

/-- Whether evaluating a tree may evaluate another one, at any depth. -/
def Tree.Part : Tree → Tree → Prop := Relation.ReflTransGen fun t u => u ∈ t.operands

/-- Whether the operators, the comparisons and the callee of a tree stand in the tables. -/
def Tree.inTables : Tree → Bool
  | .binary op _ _ => op.allowed
  | .unary op _ => op.allowed
  | .compare _ rest => rest.all fun c => c.1.allowed
  | .call f _ _ _ => (callee? f).isSome
  | _ => true

/-! ## What the check accepts -/

/-- When two checks pass one after the other, both pass. -/
theorem both_ok {r : Except Cause Unit} {k : Unit → Except Cause Unit} (h : r >>= k = .ok ()) :
    r = .ok () ∧ k () = .ok () := by
  cases r with
  | ok _ => exact ⟨rfl, h⟩
  | error c => cases h

theorem checkList_ok : ∀ {es : List Tree}, checkList es = .ok () → ∀ e ∈ es, check e = .ok ()
  | [], _ => List.forall_mem_nil _
  | e :: es, h => by
    simp only [checkList] at h
    obtain ⟨he, hes⟩ := both_ok h
    exact List.forall_mem_cons.mpr ⟨he, checkList_ok hes⟩

theorem checkArgs_ok : ∀ {es : List Tree}, checkArgs es = .ok () → ∀ e ∈ es, check e = .ok ()
  | [], _ => List.forall_mem_nil _
  | e :: es, h => by
    unfold checkArgs at h
    split at h
    · cases h
    · obtain ⟨he, hes⟩ := both_ok h
      exact List.forall_mem_cons.mpr ⟨he, checkArgs_ok hes⟩

theorem checkOption_ok : ∀ {o : Option Tree}, checkOption o = .ok () → ∀ e, o = some e → check e = .ok ()
  | some _, h, _, rfl => by
    simp only [checkOption] at h
    exact h

theorem checkComparisons_ok : ∀ {cs : List (CompareOp × Tree)}, checkComparisons cs = .ok () →
    ∀ c ∈ cs, check c.2 = .ok ()
  | [], _ => List.forall_mem_nil _
  | (_, e) :: cs, h => by
    simp only [checkComparisons, checkComparison] at h
    obtain ⟨hc, hcs⟩ := both_ok h
    exact List.forall_mem_cons.mpr ⟨hc, checkComparisons_ok hcs⟩

theorem checkKeys_ok : ∀ {es : List (Option Tree × Tree)}, checkKeys es = .ok () →
    ∀ e ∈ es, ∃ k, e.1 = some k ∧ check k = .ok ()
  | [], _ => List.forall_mem_nil _
  | (none, _) :: _, h => by
    simp only [checkKeys, checkKey] at h
    cases h
  | (some k, _) :: es, h => by
    simp only [checkKeys, checkKey] at h
    obtain ⟨hk, hes⟩ := both_ok h
    exact List.forall_mem_cons.mpr ⟨⟨k, rfl, hk⟩, checkKeys_ok hes⟩

theorem checkValues_ok : ∀ {es : List (Option Tree × Tree)}, checkValues es = .ok () →
    ∀ e ∈ es, check e.2 = .ok ()
  | [], _ => List.forall_mem_nil _
  | (_, v) :: es, h => by
    simp only [checkValues, checkValue] at h
    obtain ⟨he, hes⟩ := both_ok h
    exact List.forall_mem_cons.mpr ⟨he, checkValues_ok hes⟩

/-- A refusal that stands in front of a check. -/
theorem guarded_ok {b : Bool} {c : Cause} {r : Except Cause Unit}
    (h : (if (!b) = true then (.error c : Except Cause Unit) >>= fun _ => r else r) = .ok ()) :
    b = true ∧ r = .ok () := by
  cases b with
  | true => exact ⟨rfl, h⟩
  | false => cases h

theorem check_binary {op : BinaryOp} {l r : Tree} (h : check (.binary op l r) = .ok ()) :
    op.allowed = true ∧ check l = .ok () ∧ check r = .ok () := by
  simp only [check] at h
  obtain ⟨hop, h⟩ := guarded_ok h
  exact ⟨hop, both_ok h⟩

theorem check_unary {op : UnaryOp} {e : Tree} (h : check (.unary op e) = .ok ()) :
    op.allowed = true ∧ check e = .ok () := by
  simp only [check] at h
  exact guarded_ok h

theorem check_compare {l : Tree} {rest : List (CompareOp × Tree)} (h : check (.compare l rest) = .ok ()) :
    (∀ c ∈ rest, c.1.allowed = true) ∧ check l = .ok () ∧ checkComparisons rest = .ok () := by
  simp only [check] at h
  split at h
  · cases h
  · next hnone =>
    refine ⟨fun c hc => ?_, both_ok h⟩
    simpa using List.find?_eq_none.mp (Option.map_eq_none_iff.mp hnone) c hc

theorem check_call {f : Tree} {args : List Tree} {names : List (Option String)} {values : List Tree}
    (h : check (.call f args names values) = .ok ()) : (callee? f).isSome = true ∧ checkArgs args = .ok () := by
  simp only [check] at h
  split at h
  · cases h
  · next hf =>
    rw [hf]
    cases hnames : names.isEmpty with
    | true => exact ⟨rfl, by simpa [hnames] using h⟩
    | false => simp [hnames, bind, Except.bind] at h

/-- Whether a tree passes the check, and has slices in its subscripts only. -/
structure Tree.Accepted (t : Tree) : Prop where
  formed : t.Formed
  checked : check t = .ok ()

namespace Tree

variable {t u : Tree}

/-- A construct that no expression may use does not pass the check. -/
theorem check_of_isForeign (h : t.isForeign = true) : check t ≠ .ok () := by
  cases t <;> first | (cases h; done) | (simp only [check]; exact nofun)

theorem not_formed_slice {lo hi step : Option Tree} : ¬ (Tree.slice lo hi step).Formed := by
  intro h
  cases h with
  | foreign h => cases h

/-- What a subscript that passed the check is evaluated from passed it. -/
theorem Subscript.accepted (h : t.Subscript) (hok : check t = .ok ()) (hu : u ∈ t.bounds) : u.Accepted := by
  cases h with
  | plain hformed =>
    have hbounds : t.bounds = [t] := by
      cases t with
      | slice _ _ _ => exact absurd hformed not_formed_slice
      | _ => rfl
    obtain rfl := List.mem_singleton.mp (hbounds ▸ hu)
    exact ⟨hformed, hok⟩
  | @slice lo hi step hlo hhi hstep =>
    simp only [check] at hok
    obtain ⟨hokLo, hok⟩ := both_ok hok
    obtain ⟨hokHi, hokStep⟩ := both_ok hok
    simp only [bounds, List.mem_append, Option.mem_toList] at hu
    rcases hu with (hu | hu) | hu
    · exact ⟨hlo u hu, checkOption_ok hokLo u hu⟩
    · exact ⟨hhi u hu, checkOption_ok hokHi u hu⟩
    · exact ⟨hstep u hu, checkOption_ok hokStep u hu⟩

theorem Index.of_tuple {ts : List Tree} (h : (Tree.tuple ts).Index) : ∀ t ∈ ts, t.Subscript := by
  cases h with
  | several h => exact h
  | one h =>
    cases h with
    | plain h =>
      cases h with
      | tuple h => exact fun t ht => .plain (h t ht)
      | foreign h => cases h

/-- What is evaluated between the brackets of a subscript that passed the check passed it. -/
theorem Index.accepted (h : t.Index) (hok : check t = .ok ()) (hu : u ∈ t.indices) : u.Accepted := by
  cases t with
  | tuple ts =>
    obtain ⟨s, hs, hu⟩ := List.mem_flatMap.mp hu
    simp only [check] at hok
    exact (h.of_tuple s hs).accepted (checkList_ok hok s hs) hu
  | _ =>
    cases h with
    | one h => exact h.accepted hok hu

namespace Accepted

/-- The parts of a tree that passed the check passed it. -/
theorem operand (h : t.Accepted) (hu : u ∈ t.operands) : u.Accepted := by
  obtain ⟨hformed, hok⟩ := h
  cases hformed with
  | const _ | name _ => cases hu
  | foreign h => exact absurd hok (check_of_isForeign h)
  | binary hl hr =>
    obtain ⟨-, hokL, hokR⟩ := check_binary hok
    rcases List.mem_cons.mp hu with rfl | hu
    · exact ⟨hl, hokL⟩
    · obtain rfl := List.mem_singleton.mp hu
      exact ⟨hr, hokR⟩
  | unary he =>
    obtain rfl := List.mem_singleton.mp hu
    exact ⟨he, (check_unary hok).2⟩
  | logic hes =>
    simp only [check] at hok
    exact ⟨hes u hu, checkList_ok hok u hu⟩
  | compare hl hrest =>
    obtain ⟨-, hokL, hokRest⟩ := check_compare hok
    rcases List.mem_cons.mp hu with rfl | hu
    · exact ⟨hl, hokL⟩
    · obtain ⟨c, hc, rfl⟩ := List.mem_map.mp hu
      exact ⟨hrest c hc, checkComparisons_ok hokRest c hc⟩
  | choice htest hbody horelse =>
    simp only [check] at hok
    obtain ⟨hokTest, hok⟩ := both_ok hok
    obtain ⟨hokBody, hokOrelse⟩ := both_ok hok
    rcases List.mem_cons.mp hu with rfl | hu
    · exact ⟨htest, hokTest⟩
    rcases List.mem_cons.mp hu with rfl | hu
    · exact ⟨hbody, hokBody⟩
    · obtain rfl := List.mem_singleton.mp hu
      exact ⟨horelse, hokOrelse⟩
  | subscript hv hi =>
    simp only [check] at hok
    obtain ⟨hokV, hokI⟩ := both_ok hok
    rcases List.mem_cons.mp hu with rfl | hu
    · exact ⟨hv, hokV⟩
    · exact hi.accepted hokI hu
  | list hes =>
    simp only [check] at hok
    exact ⟨hes u hu, checkList_ok hok u hu⟩
  | tuple hes =>
    simp only [check] at hok
    exact ⟨hes u hu, checkList_ok hok u hu⟩
  | dict hkeys hvalues =>
    simp only [check] at hok
    obtain ⟨hokKeys, hokValues⟩ := both_ok hok
    obtain ⟨e, he, hu⟩ := List.mem_flatMap.mp hu
    rcases List.mem_append.mp hu with hu | hu
    · have hk : e.1 = some u := Option.mem_toList.mp hu
      obtain ⟨k, hk', hokK⟩ := checkKeys_ok hokKeys e he
      obtain rfl := Option.some.inj (hk.symm.trans hk')
      exact ⟨hkeys e he u hk, hokK⟩
    · obtain rfl := List.mem_singleton.mp hu
      exact ⟨hvalues e he, checkValues_ok hokValues e he⟩
  | call hargs => exact ⟨hargs u hu, checkArgs_ok (check_call hok).2 u hu⟩

/-- What evaluating a tree that passed the check may evaluate passed it. -/
theorem part (h : t.Accepted) (hpart : t.Part u) : u.Accepted := by
  induction hpart with
  | refl => exact h
  | tail _ hu ih => exact ih.operand hu

/-- The operators and the callee of a tree that passed the check stand in the tables. -/
theorem inTables (h : t.Accepted) : t.inTables = true := by
  have hok := h.checked
  cases t with
  | binary _ _ _ => exact (check_binary hok).1
  | unary _ _ => exact (check_unary hok).1
  | compare _ _ => exact List.all_eq_true.mpr (check_compare hok).1
  | call _ _ _ _ => exact (check_call hok).1
  | _ => rfl

end Accepted

end Tree

/-! ## What evaluation comes to -/

end Patchbay.Expr

namespace Patchbay

/-- Whether an error is one of evaluating an expression, and no refusal of what it uses. -/
def Cause.isOfEvaluation : Cause → Bool
  | .nameUndefined _ | .exponentTooLarge _ | .resultTooLarge => true
  | _ => false

namespace Expr

/-- Whether an evaluation that was not refused may stop so. -/
def Halt.Admitted : Halt → Prop
  | .failure c => c.isOfEvaluation = true
  | .fault f => f.kind.isOperational = true
  | .missing _ => True

section Evaluation

open Raises

variable {α : Type} (names : Named)

theorem lift_admitted {r : Except Fault α} (h : Operational r) : Raises Halt.Admitted (Halt.lift r) := by
  cases r with
  | ok a => exact ok a
  | error f => exact error (h f rfl)

theorem bounded_admitted (v : Value) : Raises Halt.Admitted (bounded v) := by
  unfold bounded
  repeat' split
  all_goals first | exact ok _ | exact error rfl

theorem binaryValue_admitted {op : BinaryOp} (hop : op.allowed = true) (u v : Value) :
    Raises Halt.Admitted (binaryValue op u v) := by
  have hplain {f : Value → Value → Except Fault Value} (h : Operational (f u v)) :
      Raises Halt.Admitted (Halt.lift (f u v) >>= bounded) := (lift_admitted h).bind bounded_admitted
  cases op with
  | add => exact hplain (Value.operational_add u v)
  | sub => exact hplain (Value.operational_sub u v)
  | mult =>
    simp only [binaryValue]
    split
    · exact error rfl
    · exact hplain (Value.operational_mul u v)
  | div => exact hplain (Value.operational_div u v)
  | floorDiv => exact hplain (Value.operational_floorDiv u v)
  | mod => exact hplain (Value.operational_mod u v)
  | pow =>
    simp only [binaryValue]
    split
    · exact (lift_admitted (Value.operational_worded v.toText)).bind fun _ => error rfl
    · exact hplain (Value.operational_pow u v)
  | _ => cases hop

theorem unaryValue_admitted {op : UnaryOp} (hop : op.allowed = true) (v : Value) :
    Raises Halt.Admitted (unaryValue op v) := by
  cases op with
  | plus => exact lift_admitted (Value.operational_pos v)
  | minus => exact lift_admitted (Value.operational_neg v)
  | not => exact ok _
  | invert => cases hop

theorem orderHolds_admitted (r : Relation) (u v : Value) : Raises Halt.Admitted (orderHolds r u v) := by
  unfold orderHolds
  split
  · exact ok _
  · exact error rfl

theorem compareHolds_admitted {op : CompareOp} (hop : op.allowed = true) (u v : Value) :
    Raises Halt.Admitted (compareHolds op u v) := by
  cases op with
  | eq | notEq => exact ok _
  | lt | ltE | gt | gtE => exact orderHolds_admitted _ u v
  | isIn => exact lift_admitted (Value.operational_contains v u)
  | notIn => exact (lift_admitted (Value.operational_contains v u)).bind fun _ => ok _
  | is | isNot => cases hop

theorem lookupName_admitted (id : String) : Raises Halt.Admitted (lookupName names id) := by
  unfold lookupName
  repeat' split
  all_goals first | exact ok _ | exact error rfl

theorem itemOf_admitted (u k : Value) : Raises Halt.Admitted (itemOf u k) := by
  have hitem := Value.operational_item u k
  unfold itemOf
  split
  · exact ok _
  · next f hf =>
    split
    · exact error trivial
    · exact error (hitem f hf)

theorem addEntry_admitted (d : Dict) (k v : Value) : Raises Halt.Admitted (addEntry d k v) := by
  unfold addEntry
  split
  · exact ok _
  · exact error rfl

mutual

/-- The evaluation of a tree that passed the check is not refused. -/
theorem eval_admitted : ∀ t : Tree, t.Accepted → Raises Halt.Admitted (eval names t)
  | .const c, h => by
    have hok := h.checked
    simp only [check] at hok
    simp only [eval]
    cases c <;> first | exact ok _ | cases hok
  | .name id, _ => by
    simp only [eval]
    exact lookupName_admitted names id
  | .binary op l r, h => by
    simp only [eval]
    refine (eval_admitted l (h.operand (by simp [Tree.operands]))).bind fun u => ?_
    exact (eval_admitted r (h.operand (by simp [Tree.operands]))).bind fun v => binaryValue_admitted h.inTables u v
  | .unary op e, h => by
    simp only [eval]
    exact (eval_admitted e (h.operand List.mem_cons_self)).bind fun v => unaryValue_admitted h.inTables v
  | .logic both es, h => by
    simp only [eval]
    exact evalLogic_admitted both _ es fun e he => h.operand he
  | .compare l rest, h => by
    simp only [eval]
    refine (eval_admitted l (h.operand List.mem_cons_self)).bind fun u => ?_
    have hrest : ∀ c ∈ rest, c.1.allowed = true ∧ c.2.Accepted := fun c hc =>
      ⟨List.all_eq_true.mp h.inTables c hc, h.operand (List.mem_cons_of_mem _ (List.mem_map_of_mem hc))⟩
    exact (evalComparisons_admitted u rest hrest).bind fun _ => ok _
  | .choice test body orelse, h => by
    simp only [eval]
    refine (eval_admitted test (h.operand (by simp [Tree.operands]))).bind fun v => ?_
    split
    · exact eval_admitted body (h.operand (by simp [Tree.operands]))
    · exact eval_admitted orelse (h.operand (by simp [Tree.operands]))
  | .subscript e i, h => by
    have hindices : ∀ u ∈ i.indices, u.Accepted := fun u hu => h.operand (List.mem_cons_of_mem _ hu)
    have hindex : i.Accepted → Raises Halt.Admitted (eval names i) := eval_admitted i
    simp only [eval]
    refine (eval_admitted e (h.operand List.mem_cons_self)).bind fun u => ?_
    cases i with
    | slice lo hi step =>
      refine (evalOption_admitted lo fun t ht => hindices t (by simp [Tree.indices, Tree.bounds, ht])).bind fun a => ?_
      refine (evalOption_admitted hi fun t ht => hindices t (by simp [Tree.indices, Tree.bounds, ht])).bind fun b => ?_
      refine (evalOption_admitted step fun t ht => hindices t (by simp [Tree.indices, Tree.bounds, ht])).bind fun c => ?_
      exact lift_admitted (Value.operational_slice u a b c)
    -- an index that is a tuple may hold slices, which are no expressions of their own
    | tuple es =>
      refine (evalSubscripts_admitted es fun t ht s hs => hindices s (List.mem_flatMap.mpr ⟨t, ht, hs⟩)).bind ?_
      intro (ks, sliced)
      dsimp only
      split
      · exact error rfl
      · exact itemOf_admitted u _
    | _ => exact (hindex (hindices _ List.mem_cons_self)).bind fun k => itemOf_admitted u k
  | .list es, h => by
    simp only [eval]
    exact (evalList_admitted es fun e he => h.operand he).bind fun _ => ok _
  | .tuple es, h => by
    simp only [eval]
    exact (evalList_admitted es fun e he => h.operand he).bind fun _ => ok _
  | .dict es, h => by
    have hkeys := checkKeys_ok (both_ok (by simpa only [check] using h.checked)).1
    simp only [eval]
    refine (evalEntries_admitted [] es fun e he => ?_).bind fun _ => ok _
    have hpart : ∀ t ∈ e.1.toList ++ [e.2], t.Accepted := fun t ht => h.operand (List.mem_flatMap.mpr ⟨e, he, ht⟩)
    obtain ⟨k, hk, -⟩ := hkeys e he
    exact ⟨⟨k, hk, hpart k (by simp [hk])⟩, hpart e.2 (by simp)⟩
  | .call f args _ _, h => by
    -- the check admits only calls of the functions in the table
    obtain ⟨g, hg⟩ := Option.isSome_iff_exists.mp h.inTables
    simp only [eval, hg]
    exact (evalList_admitted args fun e he => h.operand he).bind fun vs =>
      lift_admitted (Function.operational_apply g vs)
  | .slice _ _ _, h => absurd h.formed Tree.not_formed_slice
  | .set _, h | .starred _, h | .attribute _ _, h | .lambda _ _ _, h | .comprehension _ _ _, h | .await _, h
  | .yield _, h | .yieldFrom _, h | .named _ _, h | .joined _, h | .formatted _ _ _, h =>
    absurd h.checked (Tree.check_of_isForeign rfl)

theorem evalList_admitted : ∀ es : List Tree, (∀ e ∈ es, e.Accepted) → Raises Halt.Admitted (evalList names es)
  | [], _ => by
    simp only [evalList]
    exact ok _
  | e :: es, h => by
    simp only [evalList]
    refine (eval_admitted e (h e List.mem_cons_self)).bind fun v => ?_
    exact (evalList_admitted es fun u hu => h u (List.mem_cons_of_mem _ hu)).bind fun vs => ok _

theorem evalSubscripts_admitted : ∀ es : List Tree, (∀ e ∈ es, ∀ u ∈ e.bounds, u.Accepted) →
    Raises Halt.Admitted (evalSubscripts names es)
  | [], _ => by
    simp only [evalSubscripts]
    exact ok _
  | e :: es, h => by
    have he := h e List.mem_cons_self
    have hindex : e.Accepted → Raises Halt.Admitted (eval names e) := eval_admitted e
    have hrest := evalSubscripts_admitted es fun t ht => h t (List.mem_cons_of_mem _ ht)
    cases e with
    | slice lo hi step =>
      have hbound : ∀ o : Option Tree, (∀ t, o = some t → t ∈ (Tree.slice lo hi step).bounds) →
          ∀ t, o = some t → t.Accepted := fun o ho t ht => he t (ho t ht)
      simp only [evalSubscripts, pure_bind]
      refine (evalOption_admitted lo (hbound lo fun t ht => by simp [Tree.bounds, ht])).bind fun _ => ?_
      refine (evalOption_admitted hi (hbound hi fun t ht => by simp [Tree.bounds, ht])).bind fun _ => ?_
      refine (evalOption_admitted step (hbound step fun t ht => by simp [Tree.bounds, ht])).bind fun _ => ?_
      exact hrest.bind fun _ => ok _
    | _ =>
      simp only [evalSubscripts, pure_bind]
      exact (hindex (he _ List.mem_cons_self)).bind fun _ => hrest.bind fun _ => ok _

theorem evalOption_admitted : ∀ o : Option Tree, (∀ e, o = some e → e.Accepted) →
    Raises Halt.Admitted (evalOption names o)
  | none, _ => by
    simp only [evalOption]
    exact ok _
  | some e, h => by
    simp only [evalOption]
    exact eval_admitted e (h e rfl)

theorem evalLogic_admitted (both : Bool) : ∀ (last : Value) (es : List Tree), (∀ e ∈ es, e.Accepted) →
    Raises Halt.Admitted (evalLogic names both last es)
  | last, [], _ => by
    simp only [evalLogic]
    exact ok _
  | _, e :: es, h => by
    simp only [evalLogic]
    refine (eval_admitted e (h e List.mem_cons_self)).bind fun v => ?_
    split
    · exact evalLogic_admitted both v es fun u hu => h u (List.mem_cons_of_mem _ hu)
    · exact ok _

theorem evalComparisons_admitted : ∀ (u : Value) (cs : List (CompareOp × Tree)),
    (∀ c ∈ cs, c.1.allowed = true ∧ c.2.Accepted) → Raises Halt.Admitted (evalComparisons names u cs)
  | _, [], _ => by
    simp only [evalComparisons]
    exact ok _
  | u, (op, e) :: cs, h => by
    obtain ⟨hop, he⟩ := h (op, e) List.mem_cons_self
    simp only [evalComparisons, evalComparison, bind_assoc, pure_bind]
    refine (eval_admitted e he).bind fun v => (compareHolds_admitted hop u v).bind fun b => ?_
    split
    · exact evalComparisons_admitted v cs fun c hc => h c (List.mem_cons_of_mem _ hc)
    · exact ok _

theorem evalEntries_admitted : ∀ (d : Dict) (es : List (Option Tree × Tree)),
    (∀ e ∈ es, (∃ k, e.1 = some k ∧ k.Accepted) ∧ e.2.Accepted) → Raises Halt.Admitted (evalEntries names d es)
  | d, [], _ => by
    simp only [evalEntries]
    exact ok d
  | d, (some k, v) :: es, h => by
    obtain ⟨⟨k', hk', hk⟩, hv⟩ := h (some k, v) List.mem_cons_self
    obtain rfl := Option.some.inj hk'
    simp only [evalEntries, evalEntry, bind_assoc, pure_bind]
    refine (eval_admitted k hk).bind fun a => (eval_admitted v hv).bind fun b => ?_
    refine (addEntry_admitted d a b).bind fun d' => ?_
    exact evalEntries_admitted d' es fun e he => h e (List.mem_cons_of_mem _ he)
  | _, (none, _) :: _, h => by
    obtain ⟨⟨_, hk, _⟩, _⟩ := h _ List.mem_cons_self
    cases hk

end

end Evaluation

namespace Expression

/-- The tree of a checked expression passed the check. -/
theorem accepted (e : Expression) : e.tree.Accepted := ⟨formed_of_parse? e.parsed, e.checked⟩

/-- Evaluating a checked expression comes to a value, or to an error of expressions, or to the fault of
showing the key that a dictionary does not hold. No part of the expression is refused, and all its operators
and callees stand in the tables. -/
theorem evaluate_contained (e : Expression) (names : Named) :
    (∀ t, e.tree.Part t → t.inTables = true ∧
      ∀ c, eval names t = .error (.failure c) → c.isOfEvaluation = true) ∧
    ((∃ v, e.evaluate names = .ok v) ∨
      (∃ c, e.evaluate names = .error (.cause c) ∧ c.family = .sandbox) ∨
      ∃ k f, eval names e.tree = .error (.missing k) ∧ k.repr = .error f ∧
        e.evaluate names = .error (.fault .digitLimit)) := by
  refine ⟨fun t ht => ?_, ?_⟩
  · have hpart := e.accepted.part ht
    exact ⟨hpart.inTables, fun c hc => eval_admitted names t hpart _ hc⟩
  · have hadmitted := eval_admitted names e.tree e.accepted
    unfold evaluate
    cases heval : eval names e.tree with
    | ok v => exact .inl ⟨v, rfl⟩
    | error h =>
      have hh := hadmitted h heval
      cases h with
      | failure c =>
        refine .inr (.inl ⟨c, rfl, ?_⟩)
        cases c <;> first | rfl | cases hh
      | fault f => exact .inr (.inl ⟨.evaluationFailed e.source f, congrArg _ (if_pos hh), rfl⟩)
      | missing k =>
        cases hrepr : k.repr with
        | ok s =>
          refine .inr (.inl ⟨.evaluationFailed e.source .key, ?_, rfl⟩)
          simp only [raised, hrepr, Value.worded]
          rfl
        | error f =>
          refine .inr (.inr ⟨k, f, rfl, hrepr, ?_⟩)
          simp only [raised, hrepr, Value.worded]
          rfl

/-- An expression whose evaluation raises the fault of writing an integer with too many digits. -/
def overflowsText (source : String) (names : Named) : Bool :=
  match compile (.str source) with
  | .ok e => match e.evaluate names with
    | .error (.fault ⟨.value, words⟩) => words == Fault.digitLimit.words
    | _ => false
  | .error _ => false

/-- A key of five thousand digits that an empty dictionary does not hold: the fault of showing it escapes. -/
theorem evaluate_key_escapes : ∃ e, compile (.str "\x7b\x7d[(10**1000)**5]") = .ok e ∧
    e.evaluate [] = .error (.fault .digitLimit) := by
  have hfails : overflowsText "\x7b\x7d[(10**1000)**5]" [] = true := by decide +kernel
  unfold overflowsText at hfails
  split at hfails
  · next e hcompile =>
    split at hfails
    · next words hevaluate =>
      obtain rfl : words = _ := eq_of_beq hfails
      exact ⟨e, hcompile, hevaluate⟩
    · cases hfails
  · cases hfails

end Expression

end Expr

end Patchbay
