import Patchbay.Expr.Eval
import Patchbay.Proofs.Versions

/-!
# What expressions look up

The value of an expression depends on its caller's names only through the names that evaluation looks up.
The callee of a call is not one of them: it stands for a function of the table whatever names there are. A
name of the table that is not called is one of them, although it is not a free name: the caller's names come
first.

Contents:
* `Tree.lookups`: the names that evaluation looks up.

Results:
* `eval_congr`: two callers whose names agree on these get the same.
* `Tree.mem_names_of_lookups`: they are names of the tree.
* `Expression.evaluate_congr`: so is what an expression is evaluated to, by its free names and those of the
  tables that it looks up.
* `Expression.evaluate_observes`: an expression observes only its free names and the names of the tables.
-/

namespace Patchbay.Expr

mutual

/-- The names that evaluation looks up. -/
def Tree.lookups : Tree → List String
  | .name id => [id]
  | .binary _ l r => l.lookups ++ r.lookups
  | .unary _ e => e.lookups
  | .logic _ es => lookupsOfList es
  | .compare l rest => l.lookups ++ lookupsOfComparisons rest
  | .choice test body orelse => test.lookups ++ body.lookups ++ orelse.lookups
  | .subscript v i => v.lookups ++ i.lookups
  | .slice lo hi step => lookupsOfOption lo ++ lookupsOfOption hi ++ lookupsOfOption step
  | .list es => lookupsOfList es
  | .tuple es => lookupsOfList es
  | .dict es => lookupsOfEntries es
  | .call _ args _ _ => lookupsOfList args
  | _ => []

/-- The names that are looked up in several trees. -/
def lookupsOfList : List Tree → List String
  | [] => []
  | e :: es => e.lookups ++ lookupsOfList es

/-- The names that are looked up in a tree that may be absent. -/
def lookupsOfOption : Option Tree → List String
  | none => []
  | some e => e.lookups

/-- The names that are looked up in the operands of comparisons. -/
def lookupsOfComparisons : List (CompareOp × Tree) → List String
  | [] => []
  | c :: cs => lookupsOfComparison c ++ lookupsOfComparisons cs

/-- The names that are looked up in the operand of one comparison. -/
def lookupsOfComparison : CompareOp × Tree → List String
  | (_, e) => e.lookups

/-- The names that are looked up in entries. -/
def lookupsOfEntries : List (Option Tree × Tree) → List String
  | [] => []
  | e :: es => lookupsOfEntry e ++ lookupsOfEntries es

/-- The names that are looked up in one entry. -/
def lookupsOfEntry : Option Tree × Tree → List String
  | (k, v) => lookupsOfOption k ++ v.lookups

end

/-! ## Names that agree -/

/-- Whether two callers' names agree on some names. -/
def Agree (names names' : Named) (ids : List String) : Prop :=
  ∀ id ∈ ids, lookupName names id = lookupName names' id

namespace Agree

variable {names names' : Named} {ids ids' : List String}

theorem left (h : Agree names names' (ids ++ ids')) : Agree names names' ids :=
  fun id hid => h id (List.mem_append_left _ hid)

theorem right (h : Agree names names' (ids ++ ids')) : Agree names names' ids' :=
  fun id hid => h id (List.mem_append_right _ hid)

end Agree

section Congruence

variable {names names' : Named}

mutual

/-- Callers whose names agree on those that are looked up get the same value. -/
theorem eval_congr : ∀ (t : Tree), Agree names names' t.lookups → eval names t = eval names' t
  | .const _, _ => by simp only [eval]
  | .name id, h => by
    simp only [eval]
    exact h id List.mem_cons_self
  | .binary _ l r, h => by
    simp only [eval]
    rw [eval_congr l h.left, eval_congr r h.right]
  | .unary _ e, h => by
    simp only [eval]
    rw [eval_congr e h]
  | .logic both es, h => by
    simp only [eval]
    exact evalLogic_congr both _ es h
  | .compare l rest, h => by
    simp only [eval]
    rw [eval_congr l h.left]
    exact bind_congr fun u => by rw [evalComparisons_congr u rest h.right]
  | .choice test body orelse, h => by
    simp only [eval]
    rw [eval_congr test h.left.left, eval_congr body h.left.right, eval_congr orelse h.right]
  | .subscript e i, h => by
    simp only [eval]
    rw [eval_congr e h.left]
    refine bind_congr fun u => ?_
    have hindex := eval_congr i h.right
    cases i with
    | slice lo hi step =>
      have hs : Agree names names' (Tree.slice lo hi step).lookups := h.right
      simp only [evalOption_congr lo hs.left.left, evalOption_congr hi hs.left.right, evalOption_congr step hs.right]
    | tuple es => simp only [evalSubscripts_congr es h.right]
    | _ => simp only [hindex]
  | .slice _ _ _, _ => by simp only [eval]
  | .list es, h => by
    simp only [eval]
    rw [evalList_congr es h]
  | .tuple es, h => by
    simp only [eval]
    rw [evalList_congr es h]
  | .dict es, h => by
    simp only [eval]
    rw [evalEntries_congr [] es h]
  | .call f args _ _, h => by
    simp only [eval]
    rw [evalList_congr args h]
  | .set _, _ | .starred _, _ | .attribute _ _, _ | .lambda _ _ _, _ | .comprehension _ _ _, _ | .await _, _
  | .yield _, _ | .yieldFrom _, _ | .named _ _, _ | .joined _, _ | .formatted _ _ _, _ => by simp only [eval]

theorem evalList_congr : ∀ (es : List Tree), Agree names names' (lookupsOfList es) →
    evalList names es = evalList names' es
  | [], _ => by simp only [evalList]
  | e :: es, h => by
    simp only [evalList]
    rw [eval_congr e h.left, evalList_congr es h.right]

theorem evalSubscripts_congr : ∀ (es : List Tree), Agree names names' (lookupsOfList es) →
    evalSubscripts names es = evalSubscripts names' es
  | [], _ => by simp only [evalSubscripts]
  | e :: es, h => by
    have he := eval_congr e h.left
    have hes := evalSubscripts_congr es h.right
    cases e with
    | slice lo hi step =>
      have hs : Agree names names' (Tree.slice lo hi step).lookups := h.left
      simp only [evalSubscripts]
      rw [evalOption_congr lo hs.left.left, evalOption_congr hi hs.left.right, evalOption_congr step hs.right, hes]
    | _ =>
      simp only [evalSubscripts]
      rw [he, hes]

theorem evalOption_congr : ∀ (e : Option Tree), Agree names names' (lookupsOfOption e) →
    evalOption names e = evalOption names' e
  | none, _ => by simp only [evalOption]
  | some e, h => by
    simp only [evalOption]
    exact eval_congr e h

theorem evalLogic_congr (both : Bool) : ∀ (last : Value) (es : List Tree),
    Agree names names' (lookupsOfList es) → evalLogic names both last es = evalLogic names' both last es
  | _, [], _ => by simp only [evalLogic]
  | _, e :: es, h => by
    simp only [evalLogic]
    rw [eval_congr e h.left]
    exact bind_congr fun v => by rw [evalLogic_congr both v es h.right]

theorem evalComparisons_congr : ∀ (u : Value) (cs : List (CompareOp × Tree)),
    Agree names names' (lookupsOfComparisons cs) → evalComparisons names u cs = evalComparisons names' u cs
  | _, [], _ => by simp only [evalComparisons]
  | _, c :: cs, h => by
    simp only [evalComparisons]
    rw [evalComparison_congr c h.left]
    exact bind_congr fun (op, v) => by rw [evalComparisons_congr v cs h.right]

theorem evalComparison_congr : ∀ (c : CompareOp × Tree), Agree names names' (lookupsOfComparison c) →
    evalComparison names c = evalComparison names' c
  | (_, e), h => by
    simp only [evalComparison]
    rw [eval_congr e h]

theorem evalEntries_congr : ∀ (d : Dict) (es : List (Option Tree × Tree)),
    Agree names names' (lookupsOfEntries es) → evalEntries names d es = evalEntries names' d es
  | _, [], _ => by simp only [evalEntries]
  | d, e :: es, h => by
    simp only [evalEntries]
    rw [evalEntry_congr e h.left]
    exact bind_congr fun (k, v) => bind_congr fun d' => evalEntries_congr d' es h.right

theorem evalEntry_congr : ∀ (e : Option Tree × Tree), Agree names names' (lookupsOfEntry e) →
    evalEntry names e = evalEntry names' e
  | (none, _), _ => by simp only [evalEntry]
  | (some k, v), h => by
    simp only [evalEntry]
    rw [eval_congr k h.left, eval_congr v h.right]

end

end Congruence

mutual

theorem Tree.mem_names_of_lookups : ∀ (t : Tree) {id : String}, id ∈ t.lookups → id ∈ t.names
  | .name _, _, h => h
  | .binary _ l r, _, h => by
    simp only [Tree.lookups, Tree.names, List.mem_append] at h ⊢
    exact h.imp l.mem_names_of_lookups r.mem_names_of_lookups
  | .unary _ e, _, h => e.mem_names_of_lookups h
  | .logic _ es, _, h => mem_namesOfList_of_lookups es h
  | .compare l rest, _, h => by
    simp only [Tree.lookups, Tree.names, List.mem_append] at h ⊢
    exact h.imp l.mem_names_of_lookups (mem_namesOfComparisons_of_lookups rest)
  | .choice test body orelse, _, h => by
    simp only [Tree.lookups, Tree.names, List.mem_append] at h ⊢
    exact h.imp (Or.imp test.mem_names_of_lookups body.mem_names_of_lookups) orelse.mem_names_of_lookups
  | .subscript v i, _, h => by
    simp only [Tree.lookups, Tree.names, List.mem_append] at h ⊢
    exact h.imp v.mem_names_of_lookups i.mem_names_of_lookups
  | .slice lo hi step, _, h => by
    simp only [Tree.lookups, Tree.names, List.mem_append] at h ⊢
    exact h.imp (Or.imp (mem_namesOfOption_of_lookups lo) (mem_namesOfOption_of_lookups hi))
      (mem_namesOfOption_of_lookups step)
  | .list es, _, h => mem_namesOfList_of_lookups es h
  | .tuple es, _, h => mem_namesOfList_of_lookups es h
  | .dict es, _, h => mem_namesOfEntries_of_lookups es h
  | .call _ args _ _, _, h => by
    simp only [Tree.lookups, Tree.names, List.mem_append] at h ⊢
    exact .inr (mem_namesOfList_of_lookups args h)

theorem mem_namesOfList_of_lookups : ∀ (es : List Tree) {id : String}, id ∈ lookupsOfList es → id ∈ namesOfList es
  | e :: es, _, h => by
    simp only [lookupsOfList, namesOfList, List.mem_append] at h ⊢
    exact h.imp e.mem_names_of_lookups (mem_namesOfList_of_lookups es)

theorem mem_namesOfOption_of_lookups : ∀ (e : Option Tree) {id : String}, id ∈ lookupsOfOption e →
    id ∈ namesOfOption e
  | some e, _, h => e.mem_names_of_lookups h

theorem mem_namesOfComparisons_of_lookups : ∀ (cs : List (CompareOp × Tree)) {id : String},
    id ∈ lookupsOfComparisons cs → id ∈ namesOfComparisons cs
  | c :: cs, _, h => by
    simp only [lookupsOfComparisons, namesOfComparisons, List.mem_append] at h ⊢
    exact h.imp (mem_namesOfComparison_of_lookups c) (mem_namesOfComparisons_of_lookups cs)

theorem mem_namesOfComparison_of_lookups : ∀ (c : CompareOp × Tree) {id : String},
    id ∈ lookupsOfComparison c → id ∈ namesOfComparison c
  | (_, e), _, h => e.mem_names_of_lookups h

theorem mem_namesOfEntries_of_lookups : ∀ (es : List (Option Tree × Tree)) {id : String},
    id ∈ lookupsOfEntries es → id ∈ namesOfEntries es
  | e :: es, _, h => by
    simp only [lookupsOfEntries, namesOfEntries, List.mem_append] at h ⊢
    exact h.imp (mem_namesOfEntry_of_lookups e) (mem_namesOfEntries_of_lookups es)

theorem mem_namesOfEntry_of_lookups : ∀ (e : Option Tree × Tree) {id : String},
    id ∈ lookupsOfEntry e → id ∈ namesOfEntry e
  | (k, v), _, h => by
    simp only [lookupsOfEntry, namesOfEntry, List.mem_append] at h ⊢
    exact h.imp (mem_namesOfOption_of_lookups k) v.mem_names_of_lookups

end

/-! ## Names in the tables -/

/-- Whether a name is of a function or of a constant. -/
def isTabled (id : String) : Bool := (Function.ofName? id).isSome || constants.has id

/-- What an expression looks up is one of its free names, or the name of a function or of a constant. -/
theorem Expression.mem_names_or_isTabled (e : Expression) {id : String} (h : id ∈ e.tree.lookups) :
    id ∈ e.names ∨ isTabled id = true := by
  cases hid : isTabled id with
  | true => exact .inr rfl
  | false =>
    refine .inl (List.mem_eraseDups.mpr (List.mem_filter.mpr ⟨e.tree.mem_names_of_lookups h, ?_⟩))
    simp only [isTabled, Bool.or_eq_false_iff, Option.isSome_eq_false_iff] at hid
    simp only [hid.1, hid.2, Bool.not_false, Bool.and_self]

/-- Callers that bind the free names alike, and the names of the tables that are looked up, get the same. -/
theorem Expression.evaluate_congr (e : Expression) {names names' : Named}
    (hfree : ∀ id ∈ e.names, names.get? id = names'.get? id)
    (htabled : ∀ id ∈ e.tree.lookups, isTabled id = true → names.get? id = names'.get? id) :
    e.evaluate names = e.evaluate names' := by
  have hagree : Agree names names' e.tree.lookups := by
    intro id hid
    have hget : names.get? id = names'.get? id := (e.mem_names_or_isTabled hid).elim (hfree id) (htabled id hid)
    simp only [lookupName, hget]
  simp only [Expression.evaluate, eval_congr e.tree hagree]

/-- A name in a table is the name of a constant or of a function. -/
theorem mem_tables_of_isTabled {id : String} (h : isTabled id = true) :
    id ∈ constants.names ∨ ∃ f : Function, f.name = id := by
  rcases Bool.or_eq_true_iff.mp h with hfunction | hconstant
  · obtain ⟨f, hf⟩ := Option.isSome_iff_exists.mp hfunction
    exact .inr ⟨f, by simpa using List.find?_some hf⟩
  · obtain ⟨c, hc, hid⟩ := List.any_eq_true.mp hconstant
    exact .inl (List.mem_map.mpr ⟨c, hc, by simpa using hid⟩)

/-- An expression observes only what it names. Two callers whose names agree on the free names and on the names of
the tables get the same value or the same error; so a name that is neither may be added, changed or taken away. -/
theorem Expression.evaluate_observes (e : Expression) :
    (∀ names names' : Named, (∀ id ∈ e.names, names.get? id = names'.get? id) →
      (∀ id ∈ constants.names, names.get? id = names'.get? id) →
      (∀ f : Function, names.get? f.name = names'.get? f.name) → e.evaluate names = e.evaluate names') ∧
    ∀ (names : Named) (id : String), id ∉ e.names → id ∉ constants.names → (∀ f : Function, f.name ≠ id) →
      (∀ v, e.evaluate (names.set id v) = e.evaluate names) ∧ e.evaluate (names.erase id) = e.evaluate names := by
  have hcongr : ∀ names names' : Named, (∀ id ∈ e.names, names.get? id = names'.get? id) →
      (∀ id ∈ constants.names, names.get? id = names'.get? id) →
      (∀ f : Function, names.get? f.name = names'.get? f.name) → e.evaluate names = e.evaluate names' := by
    intro names names' hfree hconstants hfunctions
    refine e.evaluate_congr hfree fun id _ htabled => ?_
    rcases mem_tables_of_isTabled htabled with hconstant | ⟨f, rfl⟩
    · exact hconstants id hconstant
    · exact hfunctions f
  refine ⟨hcongr, fun names id hfree hconstant hfunction => ⟨fun v => ?_, ?_⟩⟩
  · exact hcongr _ _ (fun k hk => Named.get?_set_of_ne (ne_of_mem_of_not_mem hk hfree))
      (fun k hk => Named.get?_set_of_ne (ne_of_mem_of_not_mem hk hconstant))
      fun f => Named.get?_set_of_ne (hfunction f)
  · exact hcongr _ _ (fun k hk => Named.get?_erase_of_ne (ne_of_mem_of_not_mem hk hfree))
      (fun k hk => Named.get?_erase_of_ne (ne_of_mem_of_not_mem hk hconstant))
      fun f => Named.get?_erase_of_ne (hfunction f)

/-- Whether a text is an expression with some free names and has an integer as its value. -/
def Expression.amounts (source : String) (free : List String) (names : Named) (n : Int) : Bool :=
  match Expression.compile (.str source) with
  | .ok e => e.names == free && match e.evaluate names with
    | .ok (.int m) => m == n
    | _ => false
  | .error _ => false

/-- A choice with a name that is unbound for both callers, whose names differ in what it does not mention. -/
theorem Expression.evaluate_observes_items :
    ∃ e, Expression.compile (.str "len(items) + a if a in items else b") = .ok e ∧
    e.evaluate [("a", .int 2), ("items", .list [.int 1, .int 2]), ("c", .int 7)] =
      e.evaluate [("z", .null), ("items", .list [.int 1, .int 2]), ("a", .int 2), ("c", .str "")] ∧
    e.evaluate [("z", .null), ("items", .list [.int 1, .int 2]), ("a", .int 2), ("c", .str "")] = .ok (.int 4) := by
  have hamounts : Expression.amounts "len(items) + a if a in items else b" ["a", "items", "b"]
      [("z", .null), ("items", .list [.int 1, .int 2]), ("a", .int 2), ("c", .str "")] 4 = true := by decide +kernel
  unfold Expression.amounts at hamounts
  split at hamounts
  · next e hcompile =>
    obtain ⟨hnames, hvalue⟩ := Bool.and_eq_true_iff.mp hamounts
    split at hvalue
    · next m hm =>
      obtain rfl := of_decide_eq_true hvalue
      refine ⟨e, hcompile, e.evaluate_observes.1 _ _ (fun id hid => ?_) (fun id hid => ?_) (fun f => ?_), hm⟩
      · rw [eq_of_beq hnames] at hid
        simp only [List.mem_cons, List.not_mem_nil, or_false] at hid
        rcases hid with rfl | rfl | rfl <;> rfl
      · simp only [constants, Named.names, List.map_cons, List.map_nil, List.mem_cons, List.not_mem_nil,
          or_false] at hid
        rcases hid with rfl | rfl | rfl | rfl <;> rfl
      · cases f <;> rfl
    · cases hvalue
  · cases hamounts

end Patchbay.Expr
