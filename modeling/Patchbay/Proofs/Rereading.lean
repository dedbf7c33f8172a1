import Mathlib.Data.List.Induction
import Patchbay.Proofs.Spellings

/-!
# Reading what was written

A reader of JSON yields values of a certain form: they nest no deeper than it goes, integers have no more digits than
it reads, and the names of an object differ. What the indented writer writes for a value of that form is read as the
same value, unless the value holds a double: doubles are written by their shortest decimals, and the ones that are no
numbers as nothing.

Contents:
* `Value.HoldsFloat`: whether a double is somewhere in a value.
* `Readable`: the values that a reader yields.

Results:
* `valueFrom_readable`: a reader yields such values.
* `Readable.spells`: what is written for them is read as the same values.
-/

namespace Patchbay

/-- Whether a double is somewhere in a value. -/
inductive Value.HoldsFloat : Value → Prop
  | float (x : Float) : HoldsFloat (.float x)
  | complex (re im : Float) : HoldsFloat (.complex re im)
  | item {xs : List Value} {x : Value} (hx : x ∈ xs) (h : HoldsFloat x) : HoldsFloat (.list xs)
  | part {xs : List Value} {x : Value} (hx : x ∈ xs) (h : HoldsFloat x) : HoldsFloat (.tuple xs)
  | key {es : Dict} {e : Value × Value} (he : e ∈ es) (h : HoldsFloat e.1) : HoldsFloat (.dict es)
  | value {es : Dict} {e : Value × Value} (he : e ∈ es) (h : HoldsFloat e.2) : HoldsFloat (.dict es)

namespace Value

theorem holdsFloat_toValue {xs : Named} : xs.toValue.HoldsFloat ↔ ∃ x ∈ xs, x.2.HoldsFloat := by
  constructor
  · intro h
    cases h with
    | key he hkey =>
      obtain ⟨x, hx, rfl⟩ := List.mem_map.mp he
      cases hkey
    | value he hvalue =>
      obtain ⟨x, hx, rfl⟩ := List.mem_map.mp he
      exact ⟨x, hx, hvalue⟩
  · rintro ⟨x, hx, h⟩
    exact .value (List.mem_map_of_mem hx) h

theorem holdsFloat_list {xs : List Value} : (Value.list xs).HoldsFloat ↔ ∃ x ∈ xs, x.HoldsFloat := by
  constructor
  · intro h
    cases h with
    | item hx h => exact ⟨_, hx, h⟩
  · rintro ⟨x, hx, h⟩
    exact .item hx h

@[simp] theorem not_holdsFloat_null : ¬Value.null.HoldsFloat := nofun

@[simp] theorem not_holdsFloat_bool (b : Bool) : ¬(Value.bool b).HoldsFloat := nofun

@[simp] theorem not_holdsFloat_int (n : Int) : ¬(Value.int n).HoldsFloat := nofun

@[simp] theorem not_holdsFloat_str (s : String) : ¬(Value.str s).HoldsFloat := nofun

end Value

namespace Json

open Text

/-! ## What a reader yields -/

/-- The values that a reader yields when arrays and objects may nest to a depth. -/
inductive Readable : Nat → Value → Prop
  | null (room : Nat) : Readable room .null
  | bool (room : Nat) (b : Bool) : Readable room (.bool b)
  | int (room : Nat) {n : Int} (h : (Nat.toDigits 10 n.natAbs).length ≤ Decimal.maxIntDigits) : Readable room (.int n)
  | float (room : Nat) (x : Float) : Readable room (.float x)
  | str (room : Nat) (s : String) : Readable room (.str s)
  | list {room : Nat} {xs : List Value} (h : ∀ x ∈ xs, Readable room x) : Readable (room + 1) (.list xs)
  | dict {room : Nat} {xs : Named} (hnames : xs.names.Nodup) (h : ∀ x ∈ xs, Readable room x.2) :
      Readable (room + 1) xs.toValue

theorem natOfDigits_lt {ds : List Char} (h : ∀ c ∈ ds, c.isDigit = true) :
    Decimal.natOfDigits ds < 10 ^ ds.length := by
  induction ds using List.reverseRecOn with
  | nil => simp [Decimal.natOfDigits]
  | append_singleton ds c ih =>
    obtain ⟨hds, hc⟩ := List.forall_mem_append.mp h
    have hlt := ih hds
    have hdigit : c.toNat - '0'.toNat ≤ 9 := by
      have hc := hc c (List.mem_singleton_self c)
      simp only [Char.isDigit, Bool.and_eq_true, decide_eq_true_eq] at hc
      have hnine : c.toNat ≤ '9'.toNat := hc.2
      have hval : '9'.toNat = 57 ∧ '0'.toNat = 48 := ⟨rfl, rfl⟩
      omega
    have happend : Decimal.natOfDigits (ds ++ [c]) = 10 * Decimal.natOfDigits ds + (c.toNat - '0'.toNat) := by
      simp [Decimal.natOfDigits]
    rw [happend, List.length_append, List.length_singleton, Nat.pow_succ]
    omega

/-- An integer that was read from few digits is written with few. -/
theorem length_toDigits_natOfDigits {ds : List Char} (h : ∀ c ∈ ds, c.isDigit = true) (hne : ds ≠ []) :
    (Nat.toDigits 10 (Decimal.natOfDigits ds)).length ≤ ds.length :=
  (Nat.length_toDigits_le_iff (by decide) (List.length_pos_of_ne_nil hne)).mpr (natOfDigits_lt h)

theorem readable_digits {ds : List Char} (h : ∀ c ∈ ds, c.isDigit = true) (hne : ds ≠ [])
    (hlen : ¬ds.length > Decimal.maxIntDigits) (negative : Bool) (room : Nat) :
    Readable room (.int (if negative then -Decimal.natOfDigits ds else Decimal.natOfDigits ds)) := by
  have hfew := (length_toDigits_natOfDigits h hne).trans (Nat.not_lt.mp hlen)
  refine .int room ?_
  split
  · rwa [Int.natAbs_neg, Int.natAbs_natCast]
  · rwa [Int.natAbs_natCast]

theorem readable_unsigned {negative : Bool} {room : Nat} {cs rest : List Char} {v : Value}
    (h : unsignedFrom negative cs = .ok (v, rest)) : Readable room v := by
  have hdigits : ∀ c ∈ cs.takeWhile Char.isDigit, c.isDigit = true := fun c hc => List.mem_takeWhile_imp hc
  unfold unsignedFrom at h
  dsimp only at h
  split at h
  · cases h
  · next hne =>
    split at h
    · split at h
      · split at h
        · cases h
        · next hlen =>
          obtain ⟨rfl, -⟩ := Prod.mk.inj (Except.ok.inj h)
          exact readable_digits (by simp) (List.cons_ne_nil _ _) hlen negative room
      · obtain ⟨rfl, -⟩ := Prod.mk.inj (Except.ok.inj h)
        exact .float room _
    · split at h
      · split at h
        · cases h
        · next hlen =>
          obtain ⟨rfl, -⟩ := Prod.mk.inj (Except.ok.inj h)
          exact readable_digits hdigits (by simpa using hne) hlen negative room
      · obtain ⟨rfl, -⟩ := Prod.mk.inj (Except.ok.inj h)
        exact .float room _

theorem readable_word {word : String} {v w : Value} {room : Nat} {cs rest : List Char} (hv : Readable room v)
    (h : wordFrom word v cs = .ok (w, rest)) : Readable room w := by
  unfold wordFrom at h
  split at h
  · obtain ⟨rfl, -⟩ := Prod.mk.inj (Except.ok.inj h)
    exact hv
  · cases h

theorem nodup_names_set {d : Named} (h : d.names.Nodup) (k : String) (v : Value) : (d.set k v).names.Nodup := by
  by_cases hk : k ∈ d.names
  · rwa [Named.names_set_of_mem hk]
  · rw [Named.names_set_of_not_mem hk]
    exact List.nodup_append.mpr ⟨h, List.nodup_singleton k, fun a ha b hb hab =>
      hk ((List.mem_singleton.mp hb) ▸ hab ▸ ha)⟩

theorem mem_of_mem_set {d : Named} {k : String} {v : Value} {x : String × Value} (h : x ∈ d.set k v) :
    x = (k, v) ∨ x ∈ d := by
  induction d with
  | nil => exact .inl (List.mem_singleton.mp h)
  | cons e rest ih =>
    obtain ⟨a, w⟩ := e
    unfold Named.set at h
    split at h
    · exact (List.mem_cons.mp h).imp id (List.mem_cons_of_mem _)
    · rcases List.mem_cons.mp h with rfl | h
      · exact .inr List.mem_cons_self
      · exact (ih h).imp id (List.mem_cons_of_mem _)

theorem nodup_names_nil : (Named.names []).Nodup := List.nodup_nil

section Yields

variable {l : Limits} {fuel : Nat}

/-- Whether a reader with a number of steps left yields values that fit in the room that it has. -/
def YieldsReadable (l : Limits) (fuel : Nat) : Prop :=
  ∀ room cs v rest, valueFrom l fuel (some room) cs = .ok (v, rest) → Readable room v

theorem readable_items (h : ∀ fuel' < fuel, YieldsReadable l fuel') {room : Nat} {acc : List Value} {first : Bool}
    {cs rest : List Char} {v : Value} (hacc : ∀ x ∈ acc, Readable room x)
    (hread : itemsFrom l fuel (some room) acc first cs = .ok (v, rest)) : Readable (room + 1) v := by
  induction fuel generalizing acc first cs with
  | zero => cases hread
  | succ fuel ih =>
    rw [itemsFrom] at hread
    split at hread
    · obtain ⟨rfl, -⟩ := Prod.mk.inj (Except.ok.inj hread)
      exact .list (by simp)
    · split at hread
      · cases hread
      · next x more hx =>
        have hx := h fuel (Nat.lt_succ_self fuel) _ _ _ _ hx
        have hacc : ∀ y ∈ x :: acc, Readable room y := List.forall_mem_cons.mpr ⟨hx, hacc⟩
        split at hread
        · exact ih (fun fuel' hlt => h fuel' (Nat.lt_succ_of_lt hlt)) hacc hread
        · obtain ⟨rfl, -⟩ := Prod.mk.inj (Except.ok.inj hread)
          exact .list fun y hy => hacc y (List.mem_reverse.mp hy)
        · cases hread

theorem readable_members (h : ∀ fuel' < fuel, YieldsReadable l fuel') {room : Nat} {acc : Named} {first : Bool}
    {cs rest : List Char} {v : Value} (hnames : acc.names.Nodup) (hacc : ∀ x ∈ acc, Readable room x.2)
    (hread : membersFrom l fuel (some room) acc first cs = .ok (v, rest)) : Readable (room + 1) v := by
  induction fuel generalizing acc first cs with
  | zero => unfold membersFrom at hread; cases hread
  | succ fuel ih =>
    unfold membersFrom at hread
    split at hread
    · obtain ⟨rfl, -⟩ := Prod.mk.inj (Except.ok.inj hread)
      exact .dict nodup_names_nil (by simp)
    · split at hread
      · split at hread
        · cases hread
        · next name more _ =>
          split at hread
          · split at hread
            · cases hread
            · next x more hx =>
              have hx := h fuel (Nat.lt_succ_self fuel) _ _ _ _ hx
              have hnames := nodup_names_set hnames name x
              have hacc : ∀ y ∈ acc.set name x, Readable room y.2 := fun y hy => (mem_of_mem_set hy).elim
                (fun heq => heq ▸ hx) (hacc y)
              dsimp only at hread
              split at hread
              · exact ih (fun fuel' hlt => h fuel' (Nat.lt_succ_of_lt hlt)) hnames hacc hread
              · obtain ⟨rfl, -⟩ := Prod.mk.inj (Except.ok.inj hread)
                exact .dict hnames hacc
              · cases hread
          · cases hread
      · cases hread

/-- A reader yields values that can be read with the room that it has. -/
theorem valueFrom_readable (l : Limits) (fuel : Nat) : YieldsReadable l fuel := by
  induction fuel using Nat.strongRecOn with
  | _ fuel ih =>
    intro room cs v rest h
    cases fuel with
    | zero => unfold valueFrom at h; cases h
    | succ fuel =>
      have ih : ∀ fuel' < fuel, YieldsReadable l fuel' := fun fuel' hlt => ih fuel' (Nat.lt_succ_of_lt hlt)
      cases cs with
      | nil => rw [valueFrom] at h; cases h
      | cons c cs =>
        rw [valueFrom] at h
        by_cases hquote : (c == '"') = true
        · rw [if_pos hquote] at h
          split at h
          · obtain ⟨rfl, -⟩ := Prod.mk.inj (Except.ok.inj h)
            exact .str room _
          · cases h
        rw [if_neg hquote] at h
        by_cases hbrace : (c == '\x7b') = true
        · rw [if_pos hbrace] at h
          cases room with
          | zero => cases h
          | succ room => exact readable_members ih nodup_names_nil (by simp) h
        rw [if_neg hbrace] at h
        by_cases hbracket : (c == '[') = true
        · rw [if_pos hbracket] at h
          cases room with
          | zero => cases h
          | succ room => exact readable_items ih (by simp) h
        rw [if_neg hbracket] at h
        repeat' split at h
        all_goals first
          | exact readable_word (.null room) h
          | exact readable_word (.bool room _) h
          | exact readable_word (.float room _) h
          | exact readable_unsigned h

end Yields

/-! ## What the indented writer writes -/

/-- A line break with the indentation of a level. -/
def gap (level : Nat) : List Char := '\n' :: List.replicate (2 * level) ' '

theorem toList_newline (level : Nat) : (newline level).toList = gap level := by
  simp [newline, gap]

theorem blank_gap (level : Nat) : Blank (gap level) := by
  intro c hc
  rcases List.mem_cons.mp hc with rfl | hc
  · rfl
  · rw [List.eq_of_mem_replicate hc]
    rfl

theorem toList_block {openMark closeMark : String} {o c : Char} (ho : openMark.toList = [o])
    (hc : closeMark.toList = [c]) (level : Nat) (parts : List String) : (block openMark closeMark level parts).toList =
      enclosed o c (gap (level + 1)) (gap (level + 1)) (gap level) (parts.map String.toList) := by
  cases parts with
  | nil => simp [block, enclosed, ho, hc]
  | cons part parts => simp [block, enclosed, ho, hc, toList_newline, intercalate_cons, following, List.flatMap_map]

theorem writeListAt_eq (level : Nat) (xs : List Value) : writeListAt level xs = xs.map (writeAt level) := by
  induction xs with
  | nil => rfl
  | cons x xs ih => rw [writeListAt, ih, List.map_cons]

/-- The text of a member at a level. -/
def memberText (level : Nat) (x : String × Value) : String := openString x.1 ++ ": " ++ writeAt level x.2

theorem writeEntriesAt_eq (level : Nat) (xs : Named) :
    writeEntriesAt level (xs.map fun (k, v) => (.str k, v)) = xs.map (memberText level) := by
  induction xs with
  | nil => rfl
  | cons x xs ih => rw [List.map_cons, writeEntriesAt, ih, List.map_cons]; rfl

theorem spellsMember_memberText {l : Limits} {room : Option Nat} {level : Nat} {x : String × Value}
    (h : Spells l room (writeAt level x.2).toList x.2) : SpellsMember l room openChar (memberText level x).toList x :=
  ⟨_, by simp [memberText, toList_openString], h⟩

/-- What is written for a value that a reader yields is read as the value, unless it holds a double. -/
theorem Readable.spells {l : Limits} {room : Nat} {v : Value} (h : Readable room v) (hv : ¬v.HoldsFloat) (level : Nat) :
    Spells l (some room) (writeAt level v).toList v := by
  induction h generalizing level with
  | null room => exact spells_null
  | bool room b => exact spells_bool b
  | int room h => exact spells_int h
  | float room x => exact absurd (.float x) hv
  | str room s => exact toList_openString s ▸ spells_str escapes_openChar s
  | list _ ih =>
    rw [writeAt, writeListAt_eq, toList_block rfl rfl, List.map_map]
    refine spells_list (blank_gap _) (blank_gap _) (blank_gap _) (by simp) (List.forall₂_map_left_iff.mpr ?_)
    exact List.forall₂_same.mpr fun x hx => ih x hx (fun hfloat => hv (.item hx hfloat)) _
  | dict hnames _ ih =>
    rw [Named.toValue, writeAt, writeEntriesAt_eq, toList_block rfl rfl, List.map_map]
    refine spells_dict escapes_openChar (blank_gap _) (blank_gap _) (blank_gap _) (by simp) hnames
      (List.forall₂_map_left_iff.mpr (List.forall₂_same.mpr fun x hx => spellsMember_memberText ?_))
    exact ih x hx (fun hfloat => hv (.value (List.mem_map_of_mem hx) hfloat)) _

end Json

end Patchbay
