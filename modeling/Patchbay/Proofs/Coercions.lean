import Patchbay.Coerce

/-!
# What coercion comes to

A value converts to a type when it has the representation of the type, or spells something that has. Coercion then
yields a value of that representation, and a value that has it already comes back as it is. A value that does not
convert comes back as it is too, except where text is asked for: an integer beyond the digit limit has no text, no more
than a list or a dictionary that JSON cannot write, and coercion fails.

Contents:
* `FailsWhen`: a result that fails exactly when something is the case.
* `Value.HoldsLong`, `Json.Unwritable`, `Value.Textless`: the values without a text.
* `Value.Represents`, `Value.Converts`: the values of a type, and the ones that convert to it.

Results:
* `Value.failsWhen_repr`, `Json.failsWhen_write`: which values have a text.
* `coerce_outcomes`: what coercion comes to.
* `coerce_of_represents`: a value of a type is left as it is.
-/

namespace Patchbay

/-! ## Results that fail -/

/-- Whether a result fails exactly when something is the case, and then over a value or a type. -/
inductive FailsWhen {α : Type} (bad : Prop) : Except Fault α → Prop
  | ok {a : α} (h : ¬bad) : FailsWhen bad (.ok a)
  | error {f : Fault} (h : bad) (hf : f = .value ∨ f = .type) : FailsWhen bad (.error f)

namespace FailsWhen

variable {α β : Type} {p q : Prop} {r : Except Fault α}

theorem value (h : p) : FailsWhen p (.error .value : Except Fault α) := .error h (.inl rfl)

theorem type (h : p) : FailsWhen p (.error .type : Except Fault α) := .error h (.inr rfl)

theorem congr (h : FailsWhen p r) (hiff : p ↔ q) : FailsWhen q r := propext hiff ▸ h

theorem bind {k : α → Except Fault β} (h : FailsWhen p r) (hk : ∀ a, FailsWhen q (k a)) :
    FailsWhen (p ∨ q) (r >>= k) := by
  cases h with
  | ok hp => exact (hk _).congr (by simp [hp])
  | error hp hf => exact .error (.inl hp) hf

/-- What is made of a result without a fault of its own fails when the result does. -/
theorem map {k : α → Except Fault β} (h : FailsWhen p r) (hk : ∀ a, FailsWhen False (k a)) :
    FailsWhen p (r >>= k) :=
  (h.bind hk).congr (iff_of_eq (or_false p))

theorem exists_ok (h : FailsWhen p r) (hp : ¬p) : ∃ a, r = .ok a := by
  cases h with
  | ok => exact ⟨_, rfl⟩
  | error hbad => exact absurd hbad hp

theorem exists_error (h : FailsWhen p r) (hp : p) : ∃ f, r = .error f ∧ (f = .value ∨ f = .type) := by
  cases h with
  | ok hnot => exact absurd hp hnot
  | error _ hf => exact ⟨_, rfl, hf⟩

end FailsWhen

/-! ## Values without a text -/

namespace Value

/-- Whether an integer has more digits than text may have. -/
def IsLong (n : Int) : Prop := tenTo Decimal.maxIntDigits ≤ n.natAbs

/-- Whether such an integer is somewhere in a value. -/
inductive HoldsLong : Value → Prop
  | int {n : Int} (h : IsLong n) : HoldsLong (.int n)
  | item {xs : List Value} {x : Value} (hx : x ∈ xs) (h : HoldsLong x) : HoldsLong (.list xs)
  | part {xs : List Value} {x : Value} (hx : x ∈ xs) (h : HoldsLong x) : HoldsLong (.tuple xs)
  | key {es : Dict} {e : Value × Value} (he : e ∈ es) (h : HoldsLong e.1) : HoldsLong (.dict es)
  | value {es : Dict} {e : Value × Value} (he : e ∈ es) (h : HoldsLong e.2) : HoldsLong (.dict es)

theorem holdsLong_int_iff {n : Int} : HoldsLong (.int n) ↔ IsLong n :=
  ⟨fun | .int h => h, .int⟩

theorem holdsLong_list_iff {xs : List Value} : HoldsLong (.list xs) ↔ ∃ x ∈ xs, x.HoldsLong :=
  ⟨fun | .item hx h => ⟨_, hx, h⟩, fun ⟨_, hx, h⟩ => .item hx h⟩

theorem holdsLong_tuple_iff {xs : List Value} : HoldsLong (.tuple xs) ↔ ∃ x ∈ xs, x.HoldsLong :=
  ⟨fun | .part hx h => ⟨_, hx, h⟩, fun ⟨_, hx, h⟩ => .part hx h⟩

theorem holdsLong_dict_iff {es : Dict} : HoldsLong (.dict es) ↔ ∃ e ∈ es, e.1.HoldsLong ∨ e.2.HoldsLong where
  mp
    | .key he h => ⟨_, he, .inl h⟩
    | .value he h => ⟨_, he, .inr h⟩
  mpr
    | ⟨_, he, .inl h⟩ => .key he h
    | ⟨_, he, .inr h⟩ => .value he h

theorem failsWhen_intText (n : Int) : FailsWhen (IsLong n) (intText n) := by
  rw [intText]
  by_cases h : n.natAbs < tenTo Decimal.maxIntDigits
  · rw [if_pos h]
    exact .ok (Nat.not_le.mpr h)
  · rw [if_neg h]
    exact .value (Nat.not_lt.mp h)

mutual

/-- A value is written for a message unless it holds an integer beyond the digit limit. -/
theorem failsWhen_repr : ∀ v : Value, FailsWhen v.HoldsLong v.repr
  | null => .ok nofun
  | bool _ => .ok nofun
  | float _ => .ok nofun
  | complex _ _ => .ok nofun
  | str _ => .ok nofun
  | int n => by
    rw [repr]
    exact (failsWhen_intText n).congr holdsLong_int_iff.symm
  | list xs => ((failsWhen_reprList xs).congr holdsLong_list_iff.symm).map fun _ => .ok not_false
  | tuple xs => by
    refine ((failsWhen_reprList xs).congr holdsLong_tuple_iff.symm).map fun parts => ?_
    split <;> exact .ok not_false
  | dict es => ((failsWhen_reprEntries es).congr holdsLong_dict_iff.symm).map fun _ => .ok not_false

theorem failsWhen_reprList : ∀ xs : List Value, FailsWhen (∃ x ∈ xs, x.HoldsLong) (reprList xs)
  | [] => .ok (by simp)
  | x :: xs => ((failsWhen_repr x).bind fun _ => (failsWhen_reprList xs).map fun _ => .ok not_false).congr (by simp)

theorem failsWhen_reprEntries :
    ∀ es : Dict, FailsWhen (∃ e ∈ es, e.1.HoldsLong ∨ e.2.HoldsLong) (reprEntries es)
  | [] => .ok (by simp)
  | e :: es =>
    ((failsWhen_reprEntry e).bind fun _ => (failsWhen_reprEntries es).map fun _ => .ok not_false).congr
      (by simp)

theorem failsWhen_reprEntry : ∀ e : Value × Value, FailsWhen (e.1.HoldsLong ∨ e.2.HoldsLong) (reprEntry e)
  | (k, v) => (failsWhen_repr k).bind fun _ => (failsWhen_repr v).map fun _ => .ok not_false

end

end Value

namespace Json

open Value (IsLong)

/-- Whether a key becomes no name of a member. -/
inductive Unnamed : Value → Prop
  | int {n : Int} (h : IsLong n) : Unnamed (.int n)
  | complex (re im : Float) : Unnamed (.complex re im)
  | list (xs : List Value) : Unnamed (.list xs)
  | tuple (xs : List Value) : Unnamed (.tuple xs)
  | dict (es : Dict) : Unnamed (.dict es)

/-- Whether JSON cannot write a value in one line: it holds an integer beyond the digit limit, a complex number, or a
key that becomes no name. -/
inductive Unwritable : Value → Prop
  | int {n : Int} (h : IsLong n) : Unwritable (.int n)
  | complex (re im : Float) : Unwritable (.complex re im)
  | item {xs : List Value} {x : Value} (hx : x ∈ xs) (h : Unwritable x) : Unwritable (.list xs)
  | part {xs : List Value} {x : Value} (hx : x ∈ xs) (h : Unwritable x) : Unwritable (.tuple xs)
  | key {es : Dict} {e : Value × Value} (he : e ∈ es) (h : Unnamed e.1) : Unwritable (.dict es)
  | value {es : Dict} {e : Value × Value} (he : e ∈ es) (h : Unwritable e.2) : Unwritable (.dict es)

theorem unwritable_int_iff {n : Int} : Unwritable (.int n) ↔ IsLong n :=
  ⟨fun | .int h => h, .int⟩

theorem unwritable_list_iff {xs : List Value} : Unwritable (.list xs) ↔ ∃ x ∈ xs, Unwritable x :=
  ⟨fun | .item hx h => ⟨_, hx, h⟩, fun ⟨_, hx, h⟩ => .item hx h⟩

theorem unwritable_tuple_iff {xs : List Value} : Unwritable (.tuple xs) ↔ ∃ x ∈ xs, Unwritable x :=
  ⟨fun | .part hx h => ⟨_, hx, h⟩, fun ⟨_, hx, h⟩ => .part hx h⟩

theorem unwritable_dict_iff {es : Dict} : Unwritable (.dict es) ↔ ∃ e ∈ es, Unnamed e.1 ∨ Unwritable e.2 where
  mp
    | .key he h => ⟨_, he, .inl h⟩
    | .value he h => ⟨_, he, .inr h⟩
  mpr
    | ⟨_, he, .inl h⟩ => .key he h
    | ⟨_, he, .inr h⟩ => .value he h

theorem failsWhen_memberName : ∀ k : Value, FailsWhen (Unnamed k) (memberName k)
  | .null => .ok nofun
  | .bool _ => .ok nofun
  | .float _ => .ok nofun
  | .str _ => .ok nofun
  | .int n => by
    rw [memberName]
    exact (Value.failsWhen_intText n).congr ⟨.int, fun | .int h => h⟩
  | .complex re im => .type (.complex re im)
  | .list xs => .type (.list xs)
  | .tuple xs => .type (.tuple xs)
  | .dict es => .type (.dict es)

mutual

/-- Exactly the unwritable values are not written. -/
theorem failsWhen_write : ∀ v : Value, FailsWhen (Unwritable v) (write v)
  | .null => .ok nofun
  | .bool _ => .ok nofun
  | .float _ => .ok nofun
  | .str _ => .ok nofun
  | .int n => by
    rw [write]
    exact (Value.failsWhen_intText n).congr unwritable_int_iff.symm
  | .complex re im => .type (.complex re im)
  | .list xs => ((failsWhen_writeList xs).congr unwritable_list_iff.symm).map fun _ => .ok not_false
  | .tuple xs => ((failsWhen_writeList xs).congr unwritable_tuple_iff.symm).map fun _ => .ok not_false
  | .dict es => ((failsWhen_writeEntries es).congr unwritable_dict_iff.symm).map fun _ => .ok not_false

theorem failsWhen_writeList : ∀ xs : List Value, FailsWhen (∃ x ∈ xs, Unwritable x) (writeList xs)
  | [] => .ok (by simp)
  | x :: xs => ((failsWhen_write x).bind fun _ => (failsWhen_writeList xs).map fun _ => .ok not_false).congr (by simp)

theorem failsWhen_writeEntries : ∀ es : Dict, FailsWhen (∃ e ∈ es, Unnamed e.1 ∨ Unwritable e.2) (writeEntries es)
  | [] => .ok (by simp)
  | e :: es =>
    ((failsWhen_writeEntry e).bind fun _ => (failsWhen_writeEntries es).map fun _ => .ok not_false).congr
      (by simp)

theorem failsWhen_writeEntry : ∀ e : Value × Value, FailsWhen (Unnamed e.1 ∨ Unwritable e.2) (writeEntry e)
  | (k, v) => (failsWhen_memberName k).bind fun _ => (failsWhen_write v).map fun _ => .ok not_false

end

end Json

namespace Value

/-- Whether a value becomes no text: a list or a dictionary that JSON cannot write, and any other value that holds an
integer beyond the digit limit. -/
def Textless : Value → Prop
  | list xs => Json.Unwritable (list xs)
  | dict es => Json.Unwritable (dict es)
  | v => v.HoldsLong

/-- An integer becomes its numeral. -/
theorem coerceString_int (n : Int) : coerceString (int n) = (do return str (← (int n).repr)) := by
  rw [coerceString, toText] <;> simp

/-- Exactly the values without a text are not converted to text. -/
theorem failsWhen_coerceString : ∀ v : Value, FailsWhen v.Textless (coerceString v)
  | null => .ok nofun
  | bool _ => .ok nofun
  | str _ => .ok nofun
  | list xs => (Json.failsWhen_write (list xs)).map fun _ => .ok not_false
  | dict es => (Json.failsWhen_write (dict es)).map fun _ => .ok not_false
  | int n => by
    rw [coerceString_int]
    exact (failsWhen_repr (int n)).map fun _ => .ok not_false
  | float x => (failsWhen_repr (float x)).map fun _ => .ok not_false
  | complex re im => (failsWhen_repr (complex re im)).map fun _ => .ok not_false
  | tuple xs => (failsWhen_repr (tuple xs)).map fun _ => .ok not_false

/-! ## Types -/

/-- The values of a type. Any value would do where the type is left open, and none stands for control flow: there no
value is singled out. -/
inductive Represents : Value → ValueType → Prop
  | int (n : Int) : Represents (int n) .number
  | float (x : Float) : Represents (float x) .number
  | bool (b : Bool) : Represents (bool b) .boolean
  | str (s : String) : Represents (str s) .string
  | dict (es : Dict) : Represents (dict es) .object
  | list (xs : List Value) : Represents (list xs) .array

/-- The values that are of a type or spell one of it. -/
inductive Converts : Value → ValueType → Prop
  | itself {v : Value} {t : ValueType} (h : v.Represents t) : Converts v t
  | bit (b : Bool) : Converts (bool b) .number
  | integer {s : String} {n : Int} (h : Decimal.intOfText? 10 (Text.strip s) = some n) : Converts (str s) .number
  | decimal {s : String} {x : Float} (h : Decimal.floatOfText? (Text.strip s) = some x) : Converts (str s) .number
  | int (n : Int) : Converts (int n) .boolean
  | float (x : Float) : Converts (float x) .boolean
  | word {s : String} (h : Text.lower (Text.strip s) ∈ trueWords ++ falseWords) : Converts (str s) .boolean
  | text {v : Value} (h : ¬v.Textless) : Converts v .string
  | object {s : String} {es : Dict} (h : Json.read .literal s = .ok (dict es)) : Converts (str s) .object
  | array {s : String} {xs : List Value} (h : Json.read .literal s = .ok (list xs)) : Converts (str s) .array
  | tuple (xs : List Value) : Converts (tuple xs) .array

/-- Whether a value is what another one becomes under a type: one of the type, and the same if the other is of the type
already, or just the other when that does not convert. -/
def Becomes (v : Value) (t : ValueType) (w : Value) : Prop :=
  (v.Converts t ∧ w.Represents t ∧ (v.Represents t → w = v)) ∨ (¬v.Converts t ∧ w = v)

namespace Becomes

variable {v w : Value} {t : ValueType}

theorem itself (h : v.Represents t) : v.Becomes t v := .inl ⟨.itself h, h, fun _ => rfl⟩

theorem converted (h : v.Converts t) (hw : w.Represents t) (hv : ¬v.Represents t) : v.Becomes t w :=
  .inl ⟨h, hw, fun h => absurd h hv⟩

theorem unchanged (h : ¬v.Converts t) : v.Becomes t v := .inr ⟨h, rfl⟩

end Becomes

theorem becomes_number (v : Value) : v.Becomes .number (coerceNumber v) := by
  cases v with
  | bool b => exact .converted (.bit b) (.int _) nofun
  | int n => exact .itself (.int n)
  | float x => exact .itself (.float x)
  | str s =>
    rw [coerceNumber]
    split
    · next n hn => exact .converted (.integer hn) (.int n) nofun
    · next hint =>
      split
      · next x hx => exact .converted (.decimal hx) (.float x) nofun
      · next hdecimal =>
        refine .unchanged fun h => ?_
        cases h with
        | itself h => cases h
        | integer hn => rw [hint] at hn; cases hn
        | decimal hx => rw [hdecimal] at hx; cases hx
  | _ => exact .unchanged (by rintro ⟨⟨⟩⟩)

theorem becomes_boolean (v : Value) : v.Becomes .boolean (coerceBoolean v) := by
  cases v with
  | bool b => exact .itself (.bool b)
  | int n => exact .converted (.int n) (.bool _) nofun
  | float x => exact .converted (.float x) (.bool _) nofun
  | str s =>
    rw [coerceBoolean]
    split
    · next h => exact .converted (.word (List.mem_append_left _ (by simpa using h))) (.bool true) nofun
    · next htrue =>
      split
      · next h => exact .converted (.word (List.mem_append_right _ (by simpa using h))) (.bool false) nofun
      · next hfalse =>
        refine .unchanged fun h => ?_
        cases h with
        | itself h => cases h
        | word h => simp_all
  | _ => exact .unchanged (by rintro ⟨⟨⟩⟩)

theorem becomes_object (v : Value) : v.Becomes .object (coerceObject v) := by
  cases v with
  | dict es => exact .itself (.dict es)
  | str s =>
    rw [coerceObject]
    split
    · next es h => exact .converted (.object h) (.dict es) (by rintro ⟨⟩)
    · next hnot =>
      refine .unchanged fun h => ?_
      cases h with
      | itself h => cases h
      | object h => exact hnot _ h
  | _ => exact .unchanged (by rintro ⟨⟨⟩⟩)

theorem becomes_array (v : Value) : v.Becomes .array (coerceArray v) := by
  cases v with
  | list xs => exact .itself (.list xs)
  | tuple xs => exact .converted (.tuple xs) (.list xs) nofun
  | str s =>
    rw [coerceArray]
    split
    · next xs h => exact .converted (.array h) (.list xs) nofun
    · next hnot =>
      refine .unchanged fun h => ?_
      cases h with
      | itself h => cases h
      | array h => exact hnot _ h
  | _ => exact .unchanged (by rintro ⟨⟨⟩⟩)

theorem converts_string_iff {v : Value} : v.Converts .string ↔ ¬v.Textless where
  mp
    | .itself (.str s) => nofun
    | .text h => h
  mpr := .text

/-- Where a value has a text, coercion to text yields one, and of a text the text itself. -/
theorem becomes_string {v w : Value} (h : coerceString v = .ok w) : v.Becomes .string w := by
  have hconverts : v.Converts .string := by
    refine .text fun hv => ?_
    obtain ⟨f, hf, -⟩ := (failsWhen_coerceString v).exists_error hv
    rw [h] at hf
    cases hf
  have hbind {r : Except Fault String} (h : (do return str (← r) : Except Fault Value) = .ok w) :
      w.Represents .string := by
    cases r with
    | ok s => cases h; exact .str s
    | error f => cases h
  cases v with
  | str s => cases h; exact .itself (.str s)
  | null => cases h; exact .converted hconverts (.str _) nofun
  | bool b => cases h; exact .converted hconverts (.str _) nofun
  | _ => exact .converted hconverts (hbind h) nofun

end Value

/-! ## Coercion -/

section

variable {v w : Value} {t : ValueType}

/-- What coercion returns is what a value becomes. -/
theorem becomes_of_coerce (h : coerce v t = .ok w) : v.Becomes t w := by
  cases t with
  | any => cases h; exact .unchanged (by rintro ⟨⟨⟩⟩)
  | exec => cases h; exact .unchanged (by rintro ⟨⟨⟩⟩)
  | number => cases h; exact v.becomes_number
  | boolean => cases h; exact v.becomes_boolean
  | object => cases h; exact v.becomes_object
  | array => cases h; exact v.becomes_array
  | string => exact Value.becomes_string h

/-- A value of a type is left as it is. -/
theorem coerce_of_represents (h : v.Represents t) : coerce v t = .ok v := by
  cases h <;> rfl

/-- Coercion returns, unless text is asked for and the value has none. -/
theorem failsWhen_coerce (v : Value) (t : ValueType) : FailsWhen (t = .string ∧ ¬v.Converts t) (coerce v t) := by
  cases t with
  | string => exact (Value.failsWhen_coerceString v).congr (by simp [Value.converts_string_iff])
  | _ => exact .ok (by simp)

end

/-- A value that converts to a type becomes one of the type, and stays the same if it is one already. A value that does
not convert stays as it is, except under the type of texts: there coercion fails. -/
theorem coerce_outcomes (v : Value) (t : ValueType) :
    (v.Converts t → ∃ w, coerce v t = .ok w ∧ w.Represents t ∧ (v.Represents t → w = v)) ∧
      (¬v.Converts t → t ≠ .string → coerce v t = .ok v) ∧
      (¬v.Converts t → t = .string → ∃ f, coerce v t = .error f ∧ (f = .value ∨ f = .type)) := by
  have hfails := failsWhen_coerce v t
  refine ⟨fun hv => ?_, fun hv ht => ?_, fun hv ht => hfails.exists_error ⟨ht, hv⟩⟩
  · obtain ⟨w, hw⟩ := hfails.exists_ok fun h => h.2 hv
    rcases becomes_of_coerce hw with ⟨-, hrep, hsame⟩ | ⟨hnot, -⟩
    · exact ⟨w, hw, hrep, hsame⟩
    · exact absurd hv hnot
  · obtain ⟨w, hw⟩ := hfails.exists_ok fun h => ht h.1
    rcases becomes_of_coerce hw with ⟨hconv, -⟩ | ⟨-, rfl⟩
    · exact absurd hconv hv
    · exact hw

/-- A text with blanks around its number converts, one that is no word for a truth value does not, and neither does a
dictionary under whose key is a tuple. -/
theorem coerce_outcomes_of_each :
    (∃ w, coerce (.str " 3 ") .number = .ok w ∧ w.Represents .number) ∧
      coerce (.str "maybe") .boolean = .ok (.str "maybe") ∧
      ∃ f, coerce (.dict [(.tuple [.int 1, .int 2], .int 3)]) .string = .error f ∧ (f = .value ∨ f = .type) := by
  refine ⟨?_, ?_, ?_⟩
  · have hthree : Value.Converts (.str " 3 ") .number := .integer (n := 3) (by decide +kernel)
    obtain ⟨w, hw, hrep, -⟩ := (coerce_outcomes _ _).1 hthree
    exact ⟨w, hw, hrep⟩
  · refine (coerce_outcomes _ _).2.1 (fun h => ?_) (by decide)
    cases h with
    | itself h => cases h
    | word h => exact absurd h (by decide +kernel)
  · refine (coerce_outcomes _ _).2.2 (fun h => ?_) rfl
    exact Value.converts_string_iff.mp h (.key List.mem_cons_self (.tuple _))

/-- Ten to the power of the digit limit has no text, nor has a dictionary with a tuple for a key. -/
theorem coerce_string_fails :
    coerce (.int (tenTo Decimal.maxIntDigits)) .string = .error .value ∧
      coerce (.dict [(.tuple [.int 1, .int 2], .int 3)]) .string = .error .type := by
  refine ⟨?_, rfl⟩
  have hlong : Value.intText (tenTo Decimal.maxIntDigits) = .error .value := by
    rw [Value.intText, Int.natAbs_natCast, if_neg (Nat.lt_irrefl _)]
  have hrepr : Value.repr (.int (tenTo Decimal.maxIntDigits)) = .error .value := by rw [Value.repr, hlong]
  rw [coerce, Value.coerceString_int, hrepr]
  rfl

end Patchbay
