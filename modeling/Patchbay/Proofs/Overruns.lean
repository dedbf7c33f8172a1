import Patchbay.Proofs.Extents
import Patchbay.Proofs.Limits
import Patchbay.Proofs.Whitelisting

/-!
# How long the values of expressions get

When the names stand for values within the limit on texts, lists and tuples, so does an expression, with one way out: a
call is not looked at, and the functions that write, join or list what they are given may return more than the limit
allows. Without such a call the value is within the limit at every depth. Operators refuse what is beyond it, subscripts
and slices only take away, and a display has no more items than its text has characters.

Contents:
* `Tree.Overruns`: a call in a tree returns a sequence beyond the limit.
* `Tree.Contained`: a tree that is no larger than the limit and has no such call.

Results:
* `extent_le_of_mem_operands`: the parts of a tree are no larger than it is.
* `eval_fits`: the value of a contained tree is within the limit.
* `Expression.evaluate_fits`: the values of expressions; `Expression.evaluate_overlong`: a sum that is beyond the limit.
-/

namespace Patchbay.Expr

/-! ## The size of parts -/

theorem length_le_extents : ∀ ts : List Tree, ts.length ≤ extents ts
  | [] => Nat.le_refl _
  | t :: ts => by
    have hpos := t.extent_pos
    have hrest := length_le_extents ts
    simp only [List.length_cons, extents]
    omega

theorem extent_le_of_mem {t : Tree} : ∀ {ts : List Tree}, t ∈ ts → t.extent ≤ extents ts
  | u :: ts, h => by
    simp only [extents]
    rcases List.mem_cons.mp h with rfl | h
    · exact Nat.le_add_right _ _
    · exact Nat.le_trans (extent_le_of_mem h) (Nat.le_add_left _ _)

theorem extent_le_of_mem_comparisons {t : Tree} : ∀ {cs : List (CompareOp × Tree)}, t ∈ cs.map Prod.snd →
    t.extent ≤ comparisonExtents cs
  | (_, u) :: cs, h => by
    simp only [comparisonExtents, comparisonExtent]
    rcases List.mem_cons.mp h with rfl | h
    · exact Nat.le_add_right _ _
    · exact Nat.le_trans (extent_le_of_mem_comparisons h) (Nat.le_add_left _ _)

theorem extent_le_of_mem_entries {t : Tree} : ∀ {es : List (Option Tree × Tree)},
    t ∈ (es.flatMap fun e => e.1.toList ++ [e.2]) → t.extent ≤ entryExtents es
  | (k, v) :: es, h => by
    have hhead : t ∈ k.toList ++ [v] → t.extent ≤ entryExtent (k, v) := by
      cases k with
      | none => simp +contextual [entryExtent, boundExtent]
      | some k =>
        simp only [Option.toList_some, List.cons_append, List.nil_append, List.mem_cons, List.not_mem_nil, or_false,
          entryExtent, boundExtent]
        rintro (rfl | rfl)
        · exact Nat.le_add_right _ _
        · exact Nat.le_add_left _ _
    simp only [entryExtents]
    rcases List.mem_append.mp h with h | h
    · exact Nat.le_trans (hhead h) (Nat.le_add_right _ _)
    · exact Nat.le_trans (extent_le_of_mem_entries h) (Nat.le_add_left _ _)

theorem extent_le_of_mem_bounds {t u : Tree} (h : u ∈ t.bounds) : u.extent ≤ t.extent := by
  cases t with
  | slice lo hi step =>
    simp only [Tree.bounds, List.mem_append, Option.mem_toList, Tree.extent] at h ⊢
    rcases h with (rfl | rfl) | rfl <;> simp only [boundExtent] <;> omega
  | _ =>
    obtain rfl := List.mem_singleton.mp h
    exact Nat.le_refl _

theorem extent_le_of_mem_indices {t u : Tree} (h : u ∈ t.indices) : u.extent ≤ t.extent := by
  cases t with
  | tuple ts =>
    obtain ⟨s, hs, hu⟩ := List.mem_flatMap.mp h
    exact Nat.le_trans (extent_le_of_mem_bounds hu) (Nat.le_succ_of_le (extent_le_of_mem hs))
  | _ => exact extent_le_of_mem_bounds h

/-- The parts of a tree are no larger than it is. -/
theorem extent_le_of_mem_operands {t u : Tree} (h : u ∈ t.operands) : u.extent ≤ t.extent := by
  cases t with
  | binary op l r =>
    simp only [Tree.operands, List.mem_cons, List.not_mem_nil, or_false, Tree.extent] at h ⊢
    rcases h with rfl | rfl <;> omega
  | unary op e =>
    obtain rfl := List.mem_singleton.mp h
    exact Nat.le_succ _
  | logic both es => exact Nat.le_succ_of_le (extent_le_of_mem h)
  | compare l rest =>
    simp only [Tree.extent]
    rcases List.mem_cons.mp h with rfl | h
    · omega
    · have hrest := extent_le_of_mem_comparisons h
      omega
  | choice test body orelse =>
    simp only [Tree.operands, List.mem_cons, List.not_mem_nil, or_false, Tree.extent] at h ⊢
    rcases h with rfl | rfl | rfl <;> omega
  | subscript v i =>
    simp only [Tree.extent]
    rcases List.mem_cons.mp h with rfl | h
    · omega
    · have hindex := extent_le_of_mem_indices h
      omega
  | list es => exact Nat.le_succ_of_le (extent_le_of_mem h)
  | tuple es => exact Nat.le_succ_of_le (extent_le_of_mem h)
  | dict es => exact Nat.le_succ_of_le (extent_le_of_mem_entries h)
  | call f args keywords values => exact Nat.le_succ_of_le (extent_le_of_mem h)
  | _ => cases h

/-! ## Trees without a call beyond the limit -/

/-- Whether a call in a tree, of a function that may do so, returns a sequence beyond the limit. -/
inductive Tree.Overruns (names : Named) (t : Tree) : Prop
  | call {f : Tree} {args : List Tree} {keywords : List (Option String)} {values : List Tree} {g : Function}
      {us : List Value} {w : Value} (hpart : t.Part (.call f args keywords values)) (hcallee : callee? f = some g)
      (hargs : evalList names args = .ok us) (hunbounded : g.Unbounded us) (hvalue : g.apply us = .ok w)
      (hlong : w.Overlong) : t.Overruns names

/-- Whether nothing takes a tree beyond the limit: the names stand for values within it, the tree is no larger, and no
call in the tree goes beyond it. -/
structure Tree.Contained (names : Named) (t : Tree) : Prop where
  names_fit : ∀ id w, names.get? id = some w → w.Fits
  extent_le : t.extent ≤ maxSequenceLength
  no_overrun : ¬t.Overruns names

namespace Tree.Contained

variable {names : Named} {t u : Tree}

theorem operand (h : t.Contained names) (hu : u ∈ t.operands) : u.Contained names where
  names_fit := h.names_fit
  extent_le := Nat.le_trans (extent_le_of_mem_operands hu) h.extent_le
  no_overrun := fun
    | .call hpart hcallee hargs hunbounded hvalue hlong =>
      h.no_overrun (.call (.head hu hpart) hcallee hargs hunbounded hvalue hlong)

end Tree.Contained

/-! ## Operators -/

section Evaluation

open Returns Value

variable {names : Named}

/-- What is made of values within the limit and was looked at is within it. -/
theorem bounded_fits {v : Value} (hv : v.Filled) : Returns Fits (bounded v) := by
  have hfits (hlength : ∀ n, sequenceLength? v = some n → n ≤ maxSequenceLength) : v.Fits :=
    .intro (fun ⟨n, hn, hlong⟩ => Nat.not_le.mpr hlong (hlength n hn)) hv
  unfold bounded
  split
  · next n hn =>
    split
    · exact error
    · next hle => exact ok (hfits fun m hm => Option.some.inj (hn.symm.trans hm) ▸ Nat.not_lt.mp hle)
  · next hnone => exact ok (hfits fun m hm => nomatch hnone.symm.trans hm)

theorem lift_returns {α : Type} {P : α → Prop} {r : Except Fault α} (h : Returns P r) : Returns P (Halt.lift r) := by
  cases r with
  | ok a => exact ok (h a rfl)
  | error f => exact error

theorem binaryValue_fits (op : BinaryOp) {u v : Value} (hu : u.Fits) (hv : v.Fits) :
    Returns Fits (binaryValue op u v) := by
  have hplain {f : Value → Value → Except Fault Value} (h : Returns Filled (f u v)) :
      Returns Fits (Halt.lift (f u v) >>= bounded) := (lift_returns h).bind fun _ => bounded_fits
  have hnumber {f : Value → Value → Except Fault Value} (h : Returns Numeric (f u v)) :
      Returns Fits (Halt.lift (f u v) >>= bounded) := hplain (h.mono fun _ hn => hn.fits.filled)
  cases op with
  | add => exact hplain (add_filled hu.filled hv.filled)
  | sub => exact hnumber (sub_numeric u v)
  | mult => exact ite error (hplain (mul_filled hu.filled hv.filled))
  | div => exact hnumber (div_numeric u v)
  | floorDiv => exact hnumber (floorDiv_numeric u v)
  | mod => exact hplain (mod_filled u v)
  | pow => exact ite (whatever fun _ => error) (hnumber (pow_numeric u v))
  | _ => exact error

theorem unaryValue_fits (op : UnaryOp) (v : Value) : Returns Fits (unaryValue op v) := by
  cases op with
  | plus => exact (lift_returns (pos_numeric v)).mono fun _ => Numeric.fits
  | minus => exact (lift_returns (neg_numeric v)).mono fun _ => Numeric.fits
  | not => exact ok (Numeric.bool _).fits
  | invert => exact error

theorem itemOf_fits {u : Value} (hu : u.Fits) (k : Value) : Returns Fits (itemOf u k) := by
  unfold itemOf
  split
  · next v hv => exact ok (item_fits hu k v hv)
  · split <;> exact error

theorem lookupName_fits (hnames : ∀ id w, names.get? id = some w → w.Fits) (id : String) :
    Returns Fits (lookupName names id) := by
  unfold lookupName
  split
  · next w hw => exact ok (hnames id w hw)
  · split
    · next w hw =>
      have hconstants : ∀ e ∈ constants, e.2.Fits := by
        simp [constants, fits_null, (Numeric.bool _).fits, (Numeric.float _).fits]
      obtain ⟨before, after, heq, -⟩ := List.lookup_eq_some_iff.mp hw
      exact ok (hconstants (id, w) (heq ▸ List.mem_append_right _ List.mem_cons_self))
    · exact error

theorem addEntry_fits {d : Dict} {k v : Value} (hd : EntriesFit d) (hk : k.Fits) (hv : v.Fits) :
    Returns EntriesFit (addEntry d k v) := ite (ok (hd.set hk hv)) error

/-! ## Evaluation -/

mutual

/-- The value of a tree that is no larger than the limit and has no call beyond it is within the limit, when the values
of the names are. -/
theorem eval_fits : ∀ t : Tree, t.Contained names → Returns Fits (eval names t)
  | .const c, h => by
    have hextent := h.extent_le
    simp only [eval]
    cases c with
    | null => exact ok fits_null
    | bool b => exact ok (Numeric.bool b).fits
    | int n => exact ok (Numeric.int n).fits
    | float x => exact ok (Numeric.float x).fits
    | str s marked => exact ok (fits_str_iff.mpr (Nat.le_of_succ_le hextent))
    | imaginary _ | bytes _ | ellipsis => exact error
  | .name id, h => by
    simp only [eval]
    exact lookupName_fits h.names_fit id
  | .binary op l r, h => by
    simp only [eval]
    refine (eval_fits l (h.operand (by simp [Tree.operands]))).bind fun u hu => ?_
    exact (eval_fits r (h.operand (by simp [Tree.operands]))).bind fun v hv => binaryValue_fits op hu hv
  | .unary op e, _ => by
    simp only [eval]
    exact whatever fun v => unaryValue_fits op v
  | .logic both es, h => by
    simp only [eval]
    exact evalLogic_fits both (.bool both) es (Numeric.bool both).fits fun e he => h.operand he
  | .compare l rest, _ => by
    simp only [eval]
    exact whatever fun u => whatever fun b => ok (Numeric.bool b).fits
  | .choice test body orelse, h => by
    simp only [eval]
    refine whatever fun v => ite ?_ ?_
    · exact eval_fits body (h.operand (by simp [Tree.operands]))
    · exact eval_fits orelse (h.operand (by simp [Tree.operands]))
  | .subscript e i, h => by
    simp only [eval]
    refine (eval_fits e (h.operand List.mem_cons_self)).bind fun u hu => ?_
    -- whatever the subscript is, it takes an item or a slice of the value
    cases i with
    | slice lo hi step => exact whatever fun a => whatever fun b => whatever fun c => lift_returns (slice_fits hu a b c)
    | tuple es => exact whatever fun ks => ite error (itemOf_fits hu _)
    | _ => exact whatever fun k => itemOf_fits hu k
  | .list es, h => by
    have hlength := Nat.le_trans (length_le_extents es) (Nat.le_of_succ_le h.extent_le)
    simp only [eval]
    exact (evalList_fits es fun e he => h.operand he).bind fun vs ⟨hvs, hsame⟩ =>
      ok (fits_list_iff.mpr ⟨hsame ▸ hlength, hvs⟩)
  | .tuple es, h => by
    have hlength := Nat.le_trans (length_le_extents es) (Nat.le_of_succ_le h.extent_le)
    simp only [eval]
    exact (evalList_fits es fun e he => h.operand he).bind fun vs ⟨hvs, hsame⟩ =>
      ok (fits_tuple_iff.mpr ⟨hsame ▸ hlength, hvs⟩)
  | .dict es, h => by
    simp only [eval]
    refine (evalEntries_fits [] es (List.forall_mem_nil _) fun e he => ?_).bind fun d hd => ok (fits_dict_iff.mpr hd)
    exact fun t ht => h.operand (List.mem_flatMap.mpr ⟨e, he, ht⟩)
  | .call f args keywords values, h => by
    have hargs := evalList_fits args fun e he => h.operand he
    simp only [eval]
    split
    · next g hg =>
      cases heval : evalList names args with
      | error _ => exact error
      | ok us =>
        refine lift_returns fun w hw => ?_
        obtain ⟨hfilled, hunbounded⟩ := g.apply_filled (hargs us heval).1 w hw
        exact .intro (fun hlong => h.no_overrun (.call .refl hg heval (hunbounded hlong) hw hlong)) hfilled
    · exact error
  | .slice _ _ _, _ | .set _, _ | .starred _, _ | .attribute _ _, _ | .lambda _ _ _, _ | .comprehension _ _ _, _
  | .await _, _ | .yield _, _ | .yieldFrom _, _ | .named _ _, _ | .joined _, _ | .formatted _ _ _, _ => by
    simp only [eval]
    exact error

theorem evalList_fits : ∀ es : List Tree, (∀ e ∈ es, e.Contained names) →
    Returns (fun vs => (∀ v ∈ vs, v.Fits) ∧ vs.length = es.length) (evalList names es)
  | [], _ => by
    simp only [evalList]
    exact ok ⟨List.forall_mem_nil _, rfl⟩
  | e :: es, h => by
    simp only [evalList]
    refine (eval_fits e (h e List.mem_cons_self)).bind fun v hv => ?_
    exact (evalList_fits es fun u hu => h u (List.mem_cons_of_mem _ hu)).bind fun vs ⟨hvs, hsame⟩ =>
      ok ⟨List.forall_mem_cons.mpr ⟨hv, hvs⟩, congrArg Nat.succ hsame⟩

theorem evalLogic_fits (both : Bool) : ∀ (last : Value) (es : List Tree), last.Fits → (∀ e ∈ es, e.Contained names) →
    Returns Fits (evalLogic names both last es)
  | last, [], hlast, _ => by
    simp only [evalLogic]
    exact ok hlast
  | _, e :: es, _, h => by
    simp only [evalLogic]
    refine (eval_fits e (h e List.mem_cons_self)).bind fun v hv => ite ?_ (ok hv)
    exact evalLogic_fits both v es hv fun u hu => h u (List.mem_cons_of_mem _ hu)

theorem evalEntries_fits : ∀ (d : Dict) (es : List (Option Tree × Tree)), EntriesFit d →
    (∀ e ∈ es, ∀ t ∈ e.1.toList ++ [e.2], t.Contained names) → Returns EntriesFit (evalEntries names d es)
  | d, [], hd, _ => by
    simp only [evalEntries]
    exact ok hd
  | d, (some k, v) :: es, hd, h => by
    have hentry := h (some k, v) List.mem_cons_self
    simp only [evalEntries, evalEntry, bind_assoc, pure_bind]
    refine (eval_fits k (hentry k (by simp))).bind fun a ha => (eval_fits v (hentry v (by simp))).bind fun b hb => ?_
    refine (addEntry_fits hd ha hb).bind fun d' hd' => ?_
    exact evalEntries_fits d' es hd' fun e he => h e (List.mem_cons_of_mem _ he)
  | _, (none, _) :: _, _, _ => by
    simp only [evalEntries, evalEntry]
    exact error

end

end Evaluation

/-! ## Checked expressions -/

theorem length_strip_le (s : String) : (Text.strip s).length ≤ s.length := by
  have hfront := (List.dropWhile_suffix Text.isBlank : s.toList.dropWhile Text.isBlank <:+ s.toList).length_le
  have hback := (List.dropWhile_suffix Text.isBlank :
    (s.toList.dropWhile Text.isBlank).reverse.dropWhile Text.isBlank <:+ _).length_le
  simp only [Text.strip, Text.stripChars, String.length_ofList, List.length_reverse, String.length_toList] at *
  omega

namespace Expression

/-- The tree of an expression is smaller than the limit. -/
theorem extent_le (e : Expression) : e.tree.extent ≤ maxSequenceLength := by
  have hparsed := extent_le_of_parse? e.parsed
  have hstrip := length_strip_le e.source
  have hshort := e.short
  have hlimits : maxSourceLength ≤ maxSequenceLength := by decide
  omega

/-- When the values of the names are within the limit at every depth, then the value of an expression is, unless a call
in the expression returns a sequence beyond the limit; and only calls that write a value, sum up, or list the keys of a
dictionary in order may do that. -/
theorem evaluate_fits (e : Expression) {names : Named} (hnames : ∀ id w, names.get? id = some w → w.Fits) {v : Value}
    (h : e.evaluate names = .ok v) : v.Fits ∨ e.tree.Overruns names := by
  by_cases hoverruns : e.tree.Overruns names
  · exact .inr hoverruns
  · refine .inl (eval_fits e.tree ⟨hnames, e.extent_le, hoverruns⟩ v ?_)
    unfold evaluate at h
    split at h
    · next w hw =>
      obtain rfl := Except.ok.inj h
      exact hw
    · cases h

/-- Whether a source is compiled and evaluated to a value. -/
def yields (source : String) (names : Named) : Bool :=
  match compile (.str source) with
  | .ok e => (e.evaluate names).toBool
  | .error _ => false

/-- A list of the caller with one more item. -/
theorem evaluate_fits_of_append : ∃ e v, compile (.str "xs + [0]") = .ok e ∧
    e.evaluate [("xs", .list [.int 1, .int 2])] = .ok v ∧
    (v.Fits ∨ e.tree.Overruns [("xs", .list [.int 1, .int 2])]) := by
  have hyields : yields "xs + [0]" [("xs", .list [.int 1, .int 2])] = true := by decide +kernel
  have hnames : ∀ id w, Named.get? [("xs", .list [.int 1, .int 2])] id = some w → w.Fits := by
    intro id w hw
    obtain ⟨before, after, heq, -⟩ := List.lookup_eq_some_iff.mp hw
    have hmem : (id, w) ∈ [("xs", Value.list [.int 1, .int 2])] := heq ▸ List.mem_append_right _ List.mem_cons_self
    cases List.mem_singleton.mp hmem
    exact Value.fits_list_iff.mpr ⟨by decide, by simp [(Value.Numeric.int _).fits]⟩
  unfold yields at hyields
  split at hyields
  · next e hcompile =>
    cases hevaluate : e.evaluate [("xs", .list [.int 1, .int 2])] with
    | ok v => exact ⟨e, v, hcompile, hevaluate, e.evaluate_fits hnames hevaluate⟩
    | error _ => simp [hevaluate, Except.toBool] at hyields
  · cases hyields

end Expression

/-! ## A sum beyond the limit -/

/-- A tree that makes a list of zeros, as many as a number says. -/
def zeros (n : Nat) : Tree := .binary .mult (.list [.const (.int 0)]) (.const (.int n))

theorem eval_zeros {names : Named} {n : Nat} (h : n ≤ maxSequenceLength) :
    eval names (zeros n) = .ok (.list (List.replicate n (.int 0))) := by
  have hshort : repeatsTooMuch (.list [.int 0]) (.int n) = false := by
    simpa [repeatsTooMuch, sequenceLength?, Value.asInt?] using h
  have hcount : ¬((n : Int) > Value.maxIndex ∨ (n : Int) < -Value.maxIndex - 1) := by
    have hlimit : (maxSequenceLength : Int) ≤ Value.maxIndex := by decide
    omega
  have hproduct : Value.mul (.list [.int 0]) (.int n) = .ok (.list (List.replicate n (.int 0))) := by
    simp [Value.mul, Value.num?, Value.isSequence, Value.asInt?, Value.repeated, Value.repeatList, hcount]
  have hbounded : bounded (.list (List.replicate n (.int 0))) = .ok (.list (List.replicate n (.int 0))) := by
    simp [bounded, sequenceLength?, Nat.not_lt.mpr h]
  simp [zeros, eval, evalList, Constant.value?, binaryValue, hshort, hproduct, Halt.lift, hbounded, bind, Except.bind,
    pure, Except.pure]

/-- A call that sums up two lists of zeros. -/
def sumOfZeros (m n : Nat) : Tree := .call (.name "sum") [.list [zeros m, zeros n], .list []] [] []

/-- A sum of lists is all of them one after the other, and is not looked at. -/
theorem eval_sumOfZeros {names : Named} {m n : Nat} (hm : m ≤ maxSequenceLength) (hn : n ≤ maxSequenceLength) :
    eval names (sumOfZeros m n) = .ok (.list (List.replicate (m + n) (.int 0))) := by
  have hcallee : callee? (.name "sum") = some .sum := by decide
  have hsum (xs ys : List Value) :
      Function.sum.apply [.list [.list xs, .list ys], .list []] = .ok (.list (xs ++ ys)) := rfl
  simp [sumOfZeros, eval, evalList, eval_zeros hm, eval_zeros hn, hcallee, hsum, Halt.lift, bind, Except.bind, pure,
    Except.pure, List.replicate_append_replicate]

/-- Whether a tree sums up two lists of so many zeros. -/
def isSumOfZeros (m n : Nat) : Tree → Bool
  | .call (.name "sum") [.list [.binary .mult (.list [.const (.int 0)]) (.const (.int m')),
      .binary .mult (.list [.const (.int 0)]) (.const (.int n'))], .list []] [] [] => m' == m && n' == n
  | _ => false

theorem eq_sumOfZeros {m n : Nat} {t : Tree} (h : isSumOfZeros m n t = true) : t = sumOfZeros m n := by
  unfold isSumOfZeros at h
  split at h
  · obtain ⟨hm, hn⟩ := Bool.and_eq_true_iff.mp h
    rw [eq_of_beq hm, eq_of_beq hn]
    rfl
  · cases h

/-- Whether a source is compiled to such a sum. -/
def compilesToSum (source : String) (m n : Nat) : Bool :=
  match Expression.compile (.str source) with
  | .ok e => isSumOfZeros m n e.tree
  | .error _ => false

/-- The sum of two lists that are within the limit is beyond it, though the operator for sums refuses it. -/
theorem Expression.evaluate_overlong : ∃ e xs, compile (.str "sum([[0] * 9999, [0] * 2], [])") = .ok e ∧
    e.evaluate [] = .ok (.list xs) ∧ maxSequenceLength < xs.length := by
  have hcompiles : compilesToSum "sum([[0] * 9999, [0] * 2], [])" 9999 2 = true := by decide +kernel
  unfold compilesToSum at hcompiles
  split at hcompiles
  · next e hcompile =>
    have heval : eval [] e.tree = .ok (.list (List.replicate (9999 + 2) (.int 0))) := by
      rw [eq_sumOfZeros hcompiles]
      exact eval_sumOfZeros (by decide) (by decide)
    refine ⟨e, List.replicate (9999 + 2) (.int 0), hcompile, ?_, ?_⟩
    · unfold evaluate
      rw [heval]
    · rw [List.length_replicate]
      decide
  · cases hcompiles

end Patchbay.Expr
