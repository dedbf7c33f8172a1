import Patchbay.Expr.Eval

/-!
# How long values get

Texts, lists and tuples beyond a limit are refused where a binary operator makes them. No other construct makes
sequences longer than those it is given, and displays are no longer than the source, but some functions of the table do
and are not looked at: the text of a value, in either case too, and sums of sequences; and a dictionary, which may have
any number of keys, is sorted into the list of them.

Contents:
* `Returns`: what a result is, if it is one.
* `Value.Overlong`, `Value.Fits`, `Value.Filled`: sequences beyond the limit; values without one at any depth, or any
  depth but their own.
* `Function.Unbounded`: the applications that may return a sequence beyond the limit.

Results:
* one lemma for each operator, for subscripts, and `Function.apply_filled` for the table.
-/

namespace Patchbay

/-- Whether a result, if there is one, has a property. -/
def Returns {ε α : Type} (P : α → Prop) (r : Except ε α) : Prop := ∀ a, r = .ok a → P a

namespace Returns

variable {ε α β : Type} {P : α → Prop} {Q : β → Prop}

theorem ok {a : α} (h : P a) : Returns P (.ok a : Except ε α) := fun _ ha => Except.ok.inj ha ▸ h

theorem error {e : ε} : Returns P (.error e : Except ε α) := fun _ h => nomatch h

theorem mono {P' : α → Prop} {r : Except ε α} (h : Returns P r) (himp : ∀ a, P a → P' a) : Returns P' r :=
  fun a ha => himp a (h a ha)

theorem bind {r : Except ε α} {k : α → Except ε β} (h : Returns P r) (hk : ∀ a, P a → Returns Q (k a)) :
    Returns Q (r >>= k) := by
  cases r with
  | ok a => exact hk a (h a rfl)
  | error e => exact error

/-- What comes of a result of which nothing is known. -/
theorem whatever {r : Except ε α} {k : α → Except ε β} (hk : ∀ a, Returns Q (k a)) : Returns Q (r >>= k) :=
  bind (P := fun _ => True) (fun _ _ => trivial) fun a _ => hk a

theorem ite {c : Prop} [Decidable c] {r r' : Except ε α} (h : Returns P r) (h' : Returns P r') :
    Returns P (if c then r else r') := by
  split
  · exact h
  · exact h'

theorem foldlM {k : β → α → Except ε β} (hk : ∀ b a, Q b → P a → Returns Q (k b a)) :
    ∀ {xs : List α} {b : β}, (∀ x ∈ xs, P x) → Q b → Returns Q (xs.foldlM k b)
  | [], _, _, hb => ok hb
  | x :: xs, b, hxs, hb => by
    rw [List.foldlM_cons]
    exact (hk b x hb (hxs x List.mem_cons_self)).bind fun b' hb' =>
      foldlM hk (fun y hy => hxs y (List.mem_cons_of_mem _ hy)) hb'

end Returns

namespace Value

/-! ## Values within the limit -/

/-- The values that a value is made of: its items, or its keys and their values. -/
def parts : Value → List Value
  | list xs => xs
  | tuple xs => xs
  | dict es => es.map Prod.fst ++ es.map Prod.snd
  | _ => []

/-- Whether a value is a text, list or tuple beyond the limit. -/
def Overlong (v : Value) : Prop := ∃ n, Expr.sequenceLength? v = some n ∧ Expr.maxSequenceLength < n

/-- Whether no text, list or tuple in a value, at any depth, is beyond the limit. -/
inductive Fits : Value → Prop
  | intro {v : Value} (hlength : ¬v.Overlong) (hparts : ∀ p ∈ v.parts, Fits p) : Fits v

/-- Whether all that a value is made of is within the limit. -/
def Filled (v : Value) : Prop := ∀ p ∈ v.parts, p.Fits

theorem fits_iff {v : Value} : v.Fits ↔ ¬v.Overlong ∧ v.Filled :=
  ⟨fun | .intro hlength hparts => ⟨hlength, hparts⟩, fun ⟨hlength, hparts⟩ => .intro hlength hparts⟩

theorem Fits.filled {v : Value} (h : v.Fits) : v.Filled := (fits_iff.mp h).2

theorem filled_str (s : String) : (str s).Filled := List.forall_mem_nil _

theorem fits_str_iff {s : String} : (str s).Fits ↔ s.length ≤ Expr.maxSequenceLength := by
  rw [fits_iff]
  simp [Overlong, Expr.sequenceLength?, Filled, parts]

theorem fits_list_iff {xs : List Value} :
    (list xs).Fits ↔ xs.length ≤ Expr.maxSequenceLength ∧ ∀ x ∈ xs, x.Fits := by
  rw [fits_iff]
  simp [Overlong, Expr.sequenceLength?, Filled, parts]

theorem fits_tuple_iff {xs : List Value} :
    (tuple xs).Fits ↔ xs.length ≤ Expr.maxSequenceLength ∧ ∀ x ∈ xs, x.Fits := by
  rw [fits_iff]
  simp [Overlong, Expr.sequenceLength?, Filled, parts]

/-- Whether the keys of a dictionary and their values are within the limit. -/
def EntriesFit (es : Dict) : Prop := ∀ e ∈ es, e.1.Fits ∧ e.2.Fits

theorem fits_dict_iff {es : Dict} : (dict es).Fits ↔ EntriesFit es := by
  rw [fits_iff]
  simp only [Overlong, Expr.sequenceLength?, Filled, parts, EntriesFit, List.mem_append, List.mem_map]
  constructor
  · exact fun h e he => ⟨h.2 _ (.inl ⟨e, he, rfl⟩), h.2 _ (.inr ⟨e, he, rfl⟩)⟩
  · refine fun h => ⟨nofun, ?_⟩
    rintro p (⟨e, he, rfl⟩ | ⟨e, he, rfl⟩)
    · exact (h e he).1
    · exact (h e he).2

theorem fits_null : null.Fits := .intro nofun nofun

/-- Whether a value is a number or a truth value. -/
inductive Numeric : Value → Prop
  | bool (b : Bool) : Numeric (bool b)
  | int (n : Int) : Numeric (int n)
  | float (x : Float) : Numeric (float x)
  | complex (re im : Float) : Numeric (complex re im)

/-- Numbers have no parts and no length. -/
theorem Numeric.fits {v : Value} (h : v.Numeric) : v.Fits := by
  cases h <;> exact .intro nofun nofun

/-! ## Arithmetic -/

section Arithmetic

open Returns

variable {u v : Value}

theorem widen_numeric {onInt : Int → Int → Except Fault Value} {onFloat : Float → Float → Except Fault Value}
    {onComplex : Float × Float → Float × Float → Except Fault Value} (hint : ∀ m n, Returns Numeric (onInt m n))
    (hfloat : ∀ x y, Returns Numeric (onFloat x y)) (hcomplex : ∀ p q, Returns Numeric (onComplex p q)) (a b : Num) :
    Returns Numeric (widen onInt onFloat onComplex a b) := by
  cases a <;> cases b <;>
    first
    | exact hint _ _
    | exact hfloat _ _
    | exact hcomplex _ _
    | exact whatever fun _ => hfloat _ _
    | exact whatever fun _ => hcomplex _ _

/-- Sums, differences and products of numbers are numbers. -/
theorem widen_ok_numeric {onInt : Int → Int → Int} {onFloat : Float → Float → Float}
    {re im : Float × Float → Float × Float → Float} (a b : Num) :
    Returns Numeric (widen (fun m n => .ok (int (onInt m n))) (fun x y => .ok (float (onFloat x y)))
      (fun p q => .ok (complex (re p q) (im p q))) a b) :=
  widen_numeric (fun _ _ => ok (.int _)) (fun _ _ => ok (.float _)) (fun _ _ => ok (.complex _ _)) a b

/-- A sum is made of what its operands are made of. -/
theorem add_filled (hu : u.Filled) (hv : v.Filled) : Returns Filled (add u v) := by
  unfold add
  split
  · exact ok (filled_str _)
  · exact ok (List.forall_mem_append.mpr ⟨hu, hv⟩)
  · exact ok (List.forall_mem_append.mpr ⟨hu, hv⟩)
  · split
    · exact (widen_ok_numeric _ _).mono fun _ h => h.fits.filled
    · exact error

theorem sub_numeric (u v : Value) : Returns Numeric (sub u v) := by
  unfold sub
  split
  · exact widen_ok_numeric _ _
  · exact error

theorem mem_repeatList {α : Type} {xs : List α} {n : Int} {x : α} (h : x ∈ repeatList xs n) : x ∈ xs := by
  unfold repeatList at h
  split at h
  · cases h
  · obtain ⟨ys, hys, hx⟩ := List.mem_flatten.mp h
    exact List.eq_of_mem_replicate hys ▸ hx

theorem repeated_filled (hu : u.Filled) (n : Int) : Returns Filled (u.repeated n) := by
  unfold repeated
  refine ite error ?_
  split
  · exact ok (filled_str _)
  · exact ok fun p hp => hu p (mem_repeatList hp)
  · exact ok fun p hp => hu p (mem_repeatList hp)
  · exact error

theorem mul_filled (hu : u.Filled) (hv : v.Filled) : Returns Filled (mul u v) := by
  unfold mul
  split
  · exact (widen_ok_numeric _ _).mono fun _ h => h.fits.filled
  · repeat' refine ite ?_ ?_
    · split
      · exact repeated_filled hu _
      · exact error
    · split
      · exact repeated_filled hv _
      · exact error
    · exact error

theorem div_numeric (u v : Value) : Returns Numeric (div u v) := by
  unfold div
  split
  · refine widen_numeric (fun m n => ?_) (fun x y => ?_) (fun p q => whatever fun _ => ok (.complex _ _)) _ _
    · exact ite error (ite error (ok (.float _)))
    · exact ite error (ok (.float _))
  · exact error

/-- Floor division and its remainder. -/
theorem whole_numeric {onInt : Int → Int → Int} {onFloat : Float → Float → Float} (a b : Num) :
    Returns Numeric (widen (fun m n => if n == 0 then .error .zeroDivision else .ok (int (onInt m n)))
      (fun x y => if y == 0.0 then .error .zeroDivision else .ok (float (onFloat x y)))
      (fun _ _ => .error .type) a b) := by
  refine widen_numeric (fun m n => ?_) (fun x y => ?_) (fun _ _ => error) _ _
  · exact ite error (ok (.int _))
  · exact ite error (ok (.float _))

theorem floorDiv_numeric (u v : Value) : Returns Numeric (floorDiv u v) := by
  unfold floorDiv
  split
  · exact whole_numeric _ _
  · exact error

theorem modNumber_numeric (u v : Value) : Returns Numeric (modNumber u v) := by
  unfold modNumber
  split
  · exact whole_numeric _ _
  · exact error

/-- A filled template is a text. -/
theorem mod_filled (u v : Value) : Returns Filled (mod u v) := by
  unfold mod
  split
  · unfold fill
    exact whatever fun _ => ite (ok (filled_str _)) error
  · exact (modNumber_numeric _ v).mono fun _ h => h.fits.filled

theorem powFloat_numeric (x y : Float) : Returns Numeric (powFloat x y) := by
  unfold powFloat
  dsimp only
  repeat' refine ite ?_ ?_
  all_goals first | exact error | exact ok (.float _) | exact ok (.complex _ _)

theorem powComplex_numeric (a b : Float × Float) : Returns Numeric (powComplex a b) := by
  unfold powComplex
  dsimp only
  repeat' refine ite ?_ ?_
  all_goals first | exact error | exact ok (.complex _ _) | exact whatever fun _ => ok (.complex _ _)

theorem pow_numeric (u v : Value) : Returns Numeric (pow u v) := by
  unfold pow
  split
  · refine widen_numeric (fun m n => ?_) powFloat_numeric powComplex_numeric _ _
    exact ite (ok (.int _)) (whatever fun _ => whatever fun _ => powFloat_numeric _ _)
  · exact error

theorem neg_numeric (u : Value) : Returns Numeric u.neg := by
  unfold neg
  split
  · exact ok (.int _)
  · exact ok (.float _)
  · exact ok (.complex _ _)
  · exact error

theorem pos_numeric (u : Value) : Returns Numeric u.pos := by
  cases u with
  | bool b => exact ok (.int _)
  | int n => exact ok (.int n)
  | float x => exact ok (.float x)
  | complex re im => exact ok (.complex re im)
  | _ => exact error

theorem abs_numeric (u : Value) : Returns Numeric u.abs := by
  unfold Value.abs
  split
  · exact ok (.int _)
  · exact ok (.float _)
  · exact ite error (ok (.float _))
  · exact error

theorem integerBeside_numeric (pick : Binary64.Finite → Int) (x : Float) :
    Returns Numeric (integerBeside pick x) := by
  unfold integerBeside
  split
  · exact error
  · exact error
  · exact ok (.int _)

theorem floored_numeric (v : Value) : Returns Numeric v.floored := by
  unfold floored
  split
  · exact integerBeside_numeric _ _
  · split
    · exact ok (.int _)
    · exact error

theorem ceiled_numeric (v : Value) : Returns Numeric v.ceiled := by
  unfold ceiled
  split
  · exact integerBeside_numeric _ _
  · split
    · exact ok (.int _)
    · exact error

theorem roundFloat_numeric (x : Float) (places : Int) : Returns Numeric (roundFloat x places) := by
  unfold roundFloat
  split
  · exact ite (ok (.float _)) (ite (ok (.float _)) (ite error (ok (.float _))))
  · exact ok (.float x)

theorem rounded_numeric (v : Value) (places : Option Value) : Returns Numeric (v.rounded places) := by
  unfold rounded
  repeat' split
  all_goals first
    | exact error
    | exact ok (.int _)
    | exact integerBeside_numeric _ _
    | exact roundFloat_numeric _ _

end Arithmetic

/-! ## Items -/

section Items

open Returns

variable {u : Value}

/-- The values a value iterates over are within the limit, and there are no more of them unless they are keys. -/
theorem items_fit (hu : u.Fits) : Returns (fun xs => (∀ x ∈ xs, x.Fits) ∧
    (xs.length ≤ Expr.maxSequenceLength ∨ ∃ es, u = dict es)) u.items := by
  cases u with
  | str s =>
    refine ok ⟨fun x hx => ?_, .inl ?_⟩
    · obtain ⟨c, -, rfl⟩ := List.mem_map.mp hx
      exact fits_str_iff.mpr (by simp [Expr.maxSequenceLength])
    · rw [List.length_map, String.length_toList]
      exact fits_str_iff.mp hu
  | list xs => exact ok ⟨(fits_list_iff.mp hu).2, .inl (fits_list_iff.mp hu).1⟩
  | tuple xs => exact ok ⟨(fits_tuple_iff.mp hu).2, .inl (fits_tuple_iff.mp hu).1⟩
  | dict es =>
    refine ok ⟨fun x hx => ?_, .inr ⟨es, rfl⟩⟩
    obtain ⟨e, he, rfl⟩ := List.mem_map.mp hx
    exact (fits_dict_iff.mp hu e he).1
  | _ => exact error

theorem itemAt_mem {α : Type} (xs : List α) (i : Int) : Returns (· ∈ xs) (itemAt xs i) := by
  unfold itemAt
  refine ite error ?_
  split
  · next h => exact ok (List.mem_of_getElem? h)
  · exact error

/-- An item of a value that is within the limit is within it. -/
theorem item_fits (hu : u.Fits) (k : Value) : Returns Fits (u.item k) := by
  unfold item
  split
  · exact whatever fun _ => whatever fun c => ok (fits_str_iff.mpr (by simp [Expr.maxSequenceLength]))
  · exact whatever fun _ => (itemAt_mem _ _).mono (fits_list_iff.mp hu).2
  · exact whatever fun _ => (itemAt_mem _ _).mono (fits_tuple_iff.mp hu).2
  · refine ite error ?_
    split
    · next v hv =>
      obtain ⟨e, he, rfl⟩ := Option.map_eq_some_iff.mp hv
      exact ok (fits_dict_iff.mp hu e (List.mem_of_find?_eq_some he)).2
    · exact error
  · exact error

theorem mem_strideItems {α : Type} {xs : Array α} {start step : Int} {count : Nat} {x : α}
    (h : x ∈ strideItems xs start step count) : x ∈ xs := by
  obtain ⟨i, -, hi⟩ := List.mem_filterMap.mp h
  exact Array.mem_of_getElem? hi

theorem length_strideItems_le {α : Type} (xs : Array α) (start step : Int) (count : Nat) :
    (strideItems xs start step count).length ≤ count := by
  have hlength := List.length_filterMap_le (fun (i : Nat) => xs[(start + step * i).toNat]?) (List.range count)
  rwa [List.length_range] at hlength

/-- A bound of a slice that goes up lies from the first position to the place after the last one. -/
theorem clampBound_up (size : Nat) (i : Int) : 0 ≤ clampBound size false i ∧ clampBound size false i ≤ size := by
  unfold clampBound
  grind

/-- A bound of a slice that goes down lies from the place before the first position to the last one. -/
theorem clampBound_down (size : Nat) (i : Int) : -1 ≤ clampBound size true i ∧ clampBound size true i ≤ size - 1 := by
  unfold clampBound
  grind

/-- Whether a slice is empty, or visits no more positions than there are. -/
def SliceOf {α : Type} (xs ys : List α) : Prop :=
  ys = [] ∨ ∃ start step count, count ≤ xs.length ∧ ys = strideItems xs.toArray start step count

/-- The positions that steps over a span visit are no more than it spans. -/
theorem sliceOf_span {α : Type} {xs : List α} {start step span : Int} (hspan : span ≤ xs.length) :
    SliceOf xs (if span ≤ 0 then []
      else strideItems xs.toArray start step ((span - 1) / (step.natAbs : Int) + 1).toNat) := by
  split
  · exact .inl rfl
  · next hpos =>
    have hdiv : (span - 1) / (step.natAbs : Int) ≤ span - 1 := Int.ediv_le_self _ (by omega)
    exact .inr ⟨start, step, _, by omega, rfl⟩

theorem sliceOf_sliceList {α : Type} (xs : List α) (lo hi : Option Int) (step : Int) :
    SliceOf xs (sliceList xs lo hi step) := by
  unfold sliceList
  dsimp only
  by_cases hdown : step < 0
  · simp only [hdown, decide_true, if_true]
    refine sliceOf_span ?_
    rcases lo with _ | i <;> rcases hi with _ | j <;> dsimp only
    · omega
    · have hj := clampBound_down xs.length j
      omega
    · have hi := clampBound_down xs.length i
      omega
    · have hi := clampBound_down xs.length i
      have hj := clampBound_down xs.length j
      omega
  · simp only [hdown, decide_false, if_false]
    refine sliceOf_span ?_
    rcases lo with _ | i <;> rcases hi with _ | j <;> dsimp only
    · omega
    · have hj := clampBound_up xs.length j
      omega
    · have hi := clampBound_up xs.length i
      omega
    · have hi := clampBound_up xs.length i
      have hj := clampBound_up xs.length j
      omega

theorem mem_sliceList {α : Type} {xs : List α} {lo hi : Option Int} {step : Int} {x : α}
    (h : x ∈ sliceList xs lo hi step) : x ∈ xs := by
  rcases sliceOf_sliceList xs lo hi step with hnil | ⟨start, step', count, -, hstride⟩
  · rw [hnil] at h
    cases h
  · rw [hstride] at h
    exact List.mem_toArray.mp (mem_strideItems h)

theorem length_sliceList_le {α : Type} (xs : List α) (lo hi : Option Int) (step : Int) :
    (sliceList xs lo hi step).length ≤ xs.length := by
  rcases sliceOf_sliceList xs lo hi step with hnil | ⟨start, step', count, hcount, hstride⟩
  · rw [hnil]
    exact Nat.zero_le _
  · rw [hstride]
    exact Nat.le_trans (length_strideItems_le _ _ _ _) hcount

/-- A slice of a value that is within the limit is within it. -/
theorem slice_fits (hu : u.Fits) (lo hi step : Value) : Returns Fits (u.slice lo hi step) := by
  unfold slice
  refine ite error (whatever fun s => ?_)
  refine ite error (whatever fun a => whatever fun b => ?_)
  split
  · refine ok (fits_str_iff.mpr ?_)
    rw [String.length_ofList]
    refine Nat.le_trans (length_sliceList_le _ _ _ _) ?_
    rw [String.length_toList]
    exact fits_str_iff.mp hu
  · obtain ⟨hlength, hitems⟩ := fits_list_iff.mp hu
    exact ok (fits_list_iff.mpr
      ⟨Nat.le_trans (length_sliceList_le _ _ _ _) hlength, fun x hx => hitems x (mem_sliceList hx)⟩)
  · obtain ⟨hlength, hitems⟩ := fits_tuple_iff.mp hu
    exact ok (fits_tuple_iff.mpr
      ⟨Nat.le_trans (length_sliceList_le _ _ _ _) hlength, fun x hx => hitems x (mem_sliceList hx)⟩)
  · exact error

/-- An entry that is set keeps a dictionary within the limit. -/
theorem EntriesFit.set {k v : Value} (hk : k.Fits) (hv : v.Fits) :
    ∀ {d : Dict}, EntriesFit d → EntriesFit (Dict.set d k v)
  | [], _ => List.forall_mem_singleton.mpr ⟨hk, hv⟩
  | e :: rest, h => by
    obtain ⟨he, hrest⟩ := List.forall_mem_cons.mp h
    unfold Dict.set
    split
    · exact List.forall_mem_cons.mpr ⟨⟨he.1, hv⟩, hrest⟩
    · exact List.forall_mem_cons.mpr ⟨he, EntriesFit.set hk hv hrest⟩

end Items

/-! ## Order -/

/-- An extreme is one of the values it is taken of. -/
theorem mem_of_extreme? {r : Relation} {v : Value} : ∀ {best : Value} {xs : List Value},
    extreme? r best xs = some v → v ∈ best :: xs
  | best, [], h => by
    obtain rfl := Option.some.inj h
    exact List.mem_singleton_self _
  | best, x :: xs, h => by
    unfold extreme? at h
    split at h
    · exact List.mem_cons_of_mem _ (mem_of_extreme? h)
    · rcases List.mem_cons.mp (mem_of_extreme? h) with rfl | hv
      · exact List.mem_cons_self
      · exact List.mem_cons_of_mem _ (List.mem_cons_of_mem _ hv)
    · cases h

theorem ascendingRun?_perm : ∀ {xs run : List Value} {prev : Value} {r : List Value × List Value},
    ascendingRun? prev run xs = some r → (r.1 ++ r.2).Perm (run ++ xs)
  | [], run, prev, r, h => by
    obtain rfl := Option.some.inj h
    exact .refl _
  | x :: xs, run, prev, r, h => by
    unfold ascendingRun? at h
    split at h
    · exact (ascendingRun?_perm h).trans List.perm_middle.symm
    · obtain rfl := Option.some.inj h
      exact .refl _
    · cases h

theorem descendingRun?_perm : ∀ {xs run : List Value} {prev : Value} {r : List Value × List Value},
    descendingRun? prev run xs = some r → (r.1 ++ r.2).Perm (run ++ xs)
  | [], run, prev, r, h => by
    obtain rfl := Option.some.inj h
    exact .refl _
  | x :: xs, run, prev, r, h => by
    unfold descendingRun? at h
    split at h
    · exact (descendingRun?_perm h).trans List.perm_middle.symm
    · obtain rfl := Option.some.inj h
      exact .refl _
    · cases h

theorem firstRun?_perm {xs : List Value} {r : List Value × List Value} (h : firstRun? xs = some r) :
    (r.1 ++ r.2).Perm xs := by
  unfold firstRun? at h
  split at h
  · obtain rfl := Option.some.inj h
    exact .refl _
  · obtain rfl := Option.some.inj h
    exact .refl _
  · next x y rest =>
    have hswap : ([y, x] ++ rest).Perm (x :: y :: rest) := List.Perm.swap x y rest
    split at h
    · exact (descendingRun?_perm h).trans hswap
    · obtain ⟨r', hr', rfl⟩ := Option.map_eq_some_iff.mp h
      exact ((List.reverse_perm r'.1).append_right r'.2).trans ((ascendingRun?_perm hr').trans hswap)
    · cases h

theorem insertSorted?_perm {sorted ys : List Value} {x : Value} (h : insertSorted? sorted x = some ys) :
    ys.Perm (x :: sorted) := by
  obtain ⟨i, -, rfl⟩ := Option.map_eq_some_iff.mp h
  exact List.perm_middle.trans (by rw [List.take_append_drop])

theorem foldlM_insertSorted?_perm : ∀ {rest run ys : List Value}, rest.foldlM insertSorted? run = some ys →
    ys.Perm (run ++ rest)
  | [], run, ys, h => by
    obtain rfl := Option.some.inj h
    rw [List.append_nil]
  | x :: rest, run, ys, h => by
    rw [List.foldlM_cons] at h
    obtain ⟨run', hrun, h⟩ := Option.bind_eq_some_iff.mp h
    have hhead := (insertSorted?_perm hrun).append_right rest
    exact (foldlM_insertSorted?_perm h).trans (hhead.trans List.perm_middle.symm)

/-- Sorting keeps the items of a list. -/
theorem sort?_perm {xs ys : List Value} (h : sort? xs = some ys) : ys.Perm xs := by
  unfold sort? at h
  split at h
  · cases h
  · next run rest hrun => exact (foldlM_insertSorted?_perm h).trans (firstRun?_perm hrun)

end Value

namespace Expr

open Returns Value

/-! ## Functions of the table -/

/-- The applications that may return a sequence beyond the limit though their arguments are within it. -/
inductive Function.Unbounded : Function → List Value → Prop
  | str (args : List Value) : Unbounded .str args
  | upper (args : List Value) : Unbounded .upper args
  | lower (args : List Value) : Unbounded .lower args
  | sum (args : List Value) : Unbounded .sum args
  | sorted (es : Dict) : Unbounded .sorted [.dict es]

theorem toInteger_numeric (v : Value) : Returns Numeric (toInteger v) := by
  unfold toInteger
  split
  · exact integerBeside_numeric _ _
  · split
    · exact ok (.int _)
    · exact error
  · split
    · exact ok (.int _)
    · exact error

theorem toIntegerIn_numeric (v base : Value) : Returns Numeric (toIntegerIn v base) := by
  unfold toIntegerIn
  split
  · exact error
  · refine ite error ?_
    repeat' split
    all_goals first | exact ok (.int _) | exact error

theorem onFinite_numeric (f : Float → Float) (v : Value) : Returns Numeric (onFinite f v) :=
  whatever fun _ => ite error (ok (.float _))

theorem squareRoot_numeric (v : Value) : Returns Numeric (squareRoot v) :=
  whatever fun _ => ite error (ok (.float _))

theorem candidates_fit {args : List Value} (h : ∀ a ∈ args, a.Fits) :
    Returns (fun xs => ∀ x ∈ xs, x.Fits) (candidates args) := by
  unfold candidates
  split
  · exact error
  · exact (items_fit (h _ List.mem_cons_self)).mono fun _ hxs => hxs.1
  · exact ok h

theorem extremeOf_fits (r : Relation) {args : List Value} (h : ∀ a ∈ args, a.Fits) :
    Returns Fits (extremeOf r args) := by
  refine (candidates_fit h).bind fun xs hxs => ?_
  split
  · exact error
  · split
    · next hv => exact ok (hxs _ (mem_of_extreme? hv))
    · exact error

/-- What is summed up is made of what the summands are made of. -/
theorem sumFrom_filled {start v : Value} (hstart : start.Fits) (hv : v.Fits) : Returns Filled (sumFrom start v) := by
  refine (items_fit hv).bind fun xs hxs => ?_
  split
  · exact error
  · exact foldlM (P := Filled) (fun _ _ => add_filled) (fun x hx => (hxs.1 x hx).filled) hstart.filled

/-- What a function of the table returns is made of values within the limit, and is within it itself unless the
application is one of those that may go beyond it. -/
theorem Function.apply_filled (f : Function) {args : List Value} (h : ∀ a ∈ args, a.Fits) :
    Returns (fun v => v.Filled ∧ (v.Overlong → f.Unbounded args)) (f.apply args) := by
  have hfits {r : Except Fault Value} (hr : Returns Fits r) :
      Returns (fun v => v.Filled ∧ (v.Overlong → f.Unbounded args)) r :=
    hr.mono fun v hv => ⟨hv.filled, fun hlong => absurd hlong (fits_iff.mp hv).1⟩
  have hnumeric {r : Except Fault Value} (hr : Returns Numeric r) :
      Returns (fun v => v.Filled ∧ (v.Overlong → f.Unbounded args)) r :=
    hfits (hr.mono fun v => Numeric.fits)
  unfold Function.apply
  split
  · exact hfits (extremeOf_fits _ h)
  · exact hfits (extremeOf_fits _ h)
  · exact hnumeric (abs_numeric _)
  · exact hnumeric (rounded_numeric _ _)
  · exact hnumeric (rounded_numeric _ _)
  · exact hnumeric (whatever fun _ => ok (.int _))
  · exact ok ⟨filled_str _, fun _ => .str _⟩
  · exact whatever fun _ => ok ⟨filled_str _, fun _ => .str _⟩
  · exact hnumeric (ok (.int _))
  · exact hnumeric (toInteger_numeric _)
  · exact hnumeric (toIntegerIn_numeric _ _)
  · exact hnumeric (ok (.float _))
  · exact hnumeric (whatever fun _ => ok (.float _))
  · exact hnumeric (ok (.bool _))
  · exact hnumeric (ok (.bool _))
  · refine (sumFrom_filled (Numeric.int 0).fits (h _ List.mem_cons_self)).mono fun v hv => ⟨hv, fun _ => .sum _⟩
  · refine (sumFrom_filled (h _ (by simp)) (h _ List.mem_cons_self)).mono fun v hv => ⟨hv, fun _ => .sum _⟩
  · refine (items_fit (h _ List.mem_cons_self)).bind fun xs ⟨hxs, hlength⟩ => ?_
    split
    · next ys hys =>
      have hperm := sort?_perm hys
      refine ok ⟨fun y hy => hxs y (hperm.mem_iff.mp hy), fun ⟨n, hn, hlong⟩ => ?_⟩
      obtain rfl := Option.some.inj hn
      rcases hlength with hlength | ⟨es, rfl⟩
      · exact absurd (hperm.length_eq ▸ hlength) (Nat.not_le.mpr hlong)
      · exact .sorted es
    · exact error
  · exact whatever fun _ => ok ⟨filled_str _, fun _ => .upper _⟩
  · exact whatever fun _ => ok ⟨filled_str _, fun _ => .lower _⟩
  · exact hnumeric (squareRoot_numeric _)
  · exact hnumeric (floored_numeric _)
  · exact hnumeric (ceiled_numeric _)
  · exact hnumeric (onFinite_numeric _ _)
  · exact hnumeric (onFinite_numeric _ _)
  · exact error

end Expr

end Patchbay
