import Patchbay.Proofs.Coercions
import Patchbay.Proofs.Rereading

/-!
# Literals that are kept as text

An editor keeps each literal as the text that it becomes, and a port takes the text back. An integer is printed in
decimal and read as a numeral, a truth value becomes a word, and a list or a dictionary is written in one line of ASCII
and read as JSON. What comes back is what was kept, for every value that a reader yields and that holds no double: with
its type, all of its nesting, and the entries of its dictionaries in their order.

Contents:
* `Decimal.intOfText?_toString`: an integer is read as it was printed.
* `Json.Readable.spells_write`: the line that is written for a value spells it.

Results:
* `coerce_coerce_text`: a literal comes back from its text.
-/

namespace Patchbay

/-! ## Integers -/

namespace Decimal

open Text

variable {n : Int} {c : Char}

theorem toNat_of_isDigit (hc : c.isDigit = true) : 48 ≤ c.toNat ∧ c.toNat ≤ 57 := by
  simp only [Char.isDigit, Bool.and_eq_true, decide_eq_true_eq] at hc
  exact ⟨hc.1, hc.2⟩

/-- Digits are counted and put together. -/
theorem digitsFrom?_digits {ds : List Char} (hds : ∀ c ∈ ds, c.isDigit = true) {afterDigit : Bool}
    (hne : afterDigit = true ∨ ds ≠ []) (value count : Nat) :
    digitsFrom? 10 afterDigit value count ds =
      some (ds.foldl (fun n c => 10 * n + (c.toNat - '0'.toNat)) value, count + ds.length) := by
  induction ds generalizing afterDigit value count with
  | nil =>
    obtain rfl := hne.resolve_right fun h => h rfl
    rfl
  | cons c ds ih =>
    obtain ⟨hc, hds⟩ := List.forall_mem_cons.mp hds
    have hlow : c ≠ '_' := by
      rintro rfl
      cases hc
    have hten : c.toNat - '0'.toNat < 10 := by
      have hrange := toNat_of_isDigit hc
      have hzero : '0'.toNat = 48 := rfl
      omega
    rw [digitsFrom?.eq_3 _ _ _ _ _ _ hlow]
    simp only [alnumValue?, hc, if_true, hten, ih hds (.inl rfl), List.foldl_cons, List.length_cons, Nat.add_assoc,
      Nat.add_comm 1]

/-- Only the bases two, eight and sixteen have a mark. -/
theorem markedBase?_ne_ten (cs : List Char) : (markedBase? cs == some 10) = false := by
  unfold markedBase?
  repeat' split
  all_goals rfl

/-- The digits of a number are read as the number. -/
theorem natOfChars?_toDigits {n : Nat} (h : (Nat.toDigits 10 n).length ≤ maxIntDigits) :
    natOfChars? 10 (Nat.toDigits 10 n) = some n := by
  have hvalue : (Nat.toDigits 10 n).foldl (fun n c => 10 * n + (c.toNat - '0'.toNat)) 0 = n :=
    Json.natOfDigits_toDigits n
  have hdigits : digitsFrom? 10 false 0 0 (Nat.toDigits 10 n) = some (n, (Nat.toDigits 10 n).length) := by
    rw [digitsFrom?_digits (fun c hc => Json.isDigit_of_mem_toDigits hc) (.inr Nat.toDigits_ne_nil), hvalue,
      Nat.zero_add]
  have hfew : ¬(Nat.toDigits 10 n).length > maxIntDigits := Nat.not_lt.mpr h
  simp [natOfChars?, markedBase?_ne_ten, hdigits, hfew]

/-- The characters of a printed integer are its digits and its sign. -/
theorem mem_toString (hc : c ∈ (toString n).toList) : c.isDigit = true ∨ c = '-' := by
  rw [Json.toList_toString_int] at hc
  split at hc
  · exact .inl (Json.isDigit_of_mem_toDigits hc)
  · rcases List.mem_cons.mp hc with rfl | hc
    · exact .inr rfl
    · exact .inl (Json.isDigit_of_mem_toDigits hc)

/-- None of them is a blank or beyond ASCII. -/
theorem toNat_of_mem_toString (hc : c ∈ (toString n).toList) : 45 ≤ c.toNat ∧ c.toNat ≤ 57 := by
  rcases mem_toString hc with hc | rfl
  · have := toNat_of_isDigit hc
    omega
  · exact ⟨by decide, by decide⟩

/-- A list that does not begin or end with what is dropped stays as it is. -/
theorem dropWhile_both_of_forall {p : Char → Bool} {cs : List Char} (h : ∀ c ∈ cs, p c = false) :
    ((cs.dropWhile p).reverse.dropWhile p).reverse = cs := by
  have hkept {cs : List Char} (h : ∀ c ∈ cs, p c = false) : cs.dropWhile p = cs :=
    List.dropWhile_eq_self_iff.mpr fun hl hp => Bool.false_ne_true ((h _ (List.getElem_mem hl)).symm.trans hp)
  rw [hkept h, hkept fun c hc => h c (List.mem_reverse.mp hc), List.reverse_reverse]

theorem strip_toString (n : Int) : strip (toString n) = toString n := by
  have hblank : ∀ c ∈ (toString n).toList, isBlank c = false := by
    intro c hc
    have hrange := toNat_of_mem_toString hc
    simp only [isBlank, Bool.or_eq_false_iff, Bool.and_eq_false_iff, decide_eq_false_iff_not, beq_eq_false_iff_ne]
    omega
  rw [strip, stripChars, dropWhile_both_of_forall hblank, String.ofList_toList]

theorem plainForm_toString (n : Int) : plainForm (toString n) = (toString n).toList := by
  have hplain : (toString n).toList.map plainChar = (toString n).toList := by
    refine (List.map_congr_left fun c hc => ?_).trans (List.map_id _)
    have hrange := toNat_of_mem_toString hc
    rw [plainChar, if_pos (by omega), id]
  have hblank : ∀ c ∈ (toString n).toList, isPlainBlank c = false := by
    intro c hc
    have hrange := toNat_of_mem_toString hc
    have hspace : c ≠ ' ' := by
      rintro rfl
      exact absurd hrange.1 (by decide)
    simp only [isPlainBlank, Bool.or_eq_false_iff, Bool.and_eq_false_iff, decide_eq_false_iff_not, beq_eq_false_iff_ne]
    exact ⟨hspace, by omega⟩
  rw [plainForm, hplain]
  exact dropWhile_both_of_forall hblank

/-- A text of digits has no sign. -/
theorem splitSign_toDigits (n : Nat) : splitSign (Nat.toDigits 10 n) = (false, Nat.toDigits 10 n) := by
  unfold splitSign
  split
  · next heq => exact absurd (Json.isDigit_of_mem_toDigits (heq ▸ List.mem_cons_self : '-' ∈ Nat.toDigits 10 n)) nofun
  · next heq => exact absurd (Json.isDigit_of_mem_toDigits (heq ▸ List.mem_cons_self : '+' ∈ Nat.toDigits 10 n)) nofun
  · rfl

/-- An integer is read as it was printed. -/
theorem intOfText?_toString (h : (Nat.toDigits 10 n.natAbs).length ≤ maxIntDigits) :
    intOfText? 10 (toString n) = some n := by
  rw [intOfText?, plainForm_toString, Json.toList_toString_int]
  by_cases hsign : 0 ≤ n
  · rw [if_pos hsign]
    simp [splitSign_toDigits, natOfChars?_toDigits h, Int.natAbs_of_nonneg hsign]
  · have hneg : -(n.natAbs : Int) = n := by omega
    rw [if_neg hsign]
    simp only [splitSign, natOfChars?_toDigits h]
    exact congrArg some hneg

theorem lt_tenTo_of_length {n k : Nat} (hk : 0 < k) (h : (Nat.toDigits 10 n).length ≤ k) : n < tenTo k :=
  (Nat.length_toDigits_le_iff (by decide) hk).mp h

end Decimal

/-- An integer with no more digits than text may have is printed. -/
theorem Value.intText_eq {n : Int} (h : (Nat.toDigits 10 n.natAbs).length ≤ Decimal.maxIntDigits) :
    Value.intText n = .ok (toString n) :=
  if_pos (Decimal.lt_tenTo_of_length (by decide) h)

/-! ## Lists and dictionaries -/

namespace Json

variable {l : Limits} {P : List Char → Value → Prop}

/-- Items that can be written one by one can be written together. -/
theorem writeList_of_forall {xs : List Value} (h : ∀ x ∈ xs, ∃ text, write x = .ok text ∧ P text.toList x) :
    ∃ texts, writeList xs = .ok texts ∧ List.Forall₂ P (texts.map String.toList) xs := by
  induction xs with
  | nil => exact ⟨[], rfl, .nil⟩
  | cons x xs ih =>
    obtain ⟨⟨text, htext, hx⟩, hxs⟩ := List.forall_mem_cons.mp h
    obtain ⟨texts, htexts, hall⟩ := ih hxs
    exact ⟨text :: texts, by simp only [writeList, htext, htexts]; rfl, .cons hx hall⟩

/-- So can members. -/
theorem writeEntries_of_forall {xs : Named}
    (h : ∀ x ∈ xs, ∃ text, write x.2 = .ok text ∧ Spells l none text.toList x.2) :
    ∃ texts, writeEntries (xs.map fun (k, v) => (.str k, v)) = .ok texts ∧
      List.Forall₂ (SpellsMember l none asciiChar) (texts.map String.toList) xs := by
  induction xs with
  | nil => exact ⟨[], rfl, .nil⟩
  | cons x xs ih =>
    obtain ⟨⟨text, htext, hx⟩, hxs⟩ := List.forall_mem_cons.mp h
    obtain ⟨texts, htexts, hall⟩ := ih hxs
    have hmember : writeEntry (.str x.1, x.2) = .ok (asciiString x.1 ++ ": " ++ text) := by
      simp only [writeEntry, memberName, htext]
      rfl
    refine ⟨(asciiString x.1 ++ ": " ++ text) :: texts, ?_, .cons ⟨text.toList, ?_, hx⟩ hall⟩
    · simp only [List.map_cons, writeEntries, hmember, htexts]
      rfl
    · simp [toList_asciiString]

/-- Parts between brackets in one line, with a blank after each comma. -/
theorem toList_intercalate {openMark closeMark : String} {o c : Char} (ho : openMark.toList = [o])
    (hc : closeMark.toList = [c]) (parts : List String) :
    (openMark ++ String.intercalate ", " parts ++ closeMark).toList =
      enclosed o c [] [' '] [] (parts.map String.toList) := by
  cases parts with
  | nil => simp [enclosed, ho, hc]
  | cons part parts => simp [enclosed, ho, hc, intercalate_cons, following, List.flatMap_map]

/-- Every value that a reader yields can be written in one line that spells it, unless it holds a double. -/
theorem Readable.spells_write {room : Nat} {v : Value} (h : Readable room v) (hv : ¬v.HoldsFloat) :
    ∃ text, write v = .ok text ∧ Spells l none text.toList v := by
  induction h with
  | null room => exact ⟨_, rfl, spells_null⟩
  | bool room b => exact ⟨_, rfl, spells_bool b⟩
  | int room h => exact ⟨_, Value.intText_eq h, spells_int h⟩
  | float room x => exact absurd (.float x) hv
  | str room s => exact ⟨_, rfl, toList_asciiString s ▸ spells_str escapes_asciiChar s⟩
  | @list room xs _ ih =>
    obtain ⟨texts, htexts, hall⟩ := writeList_of_forall fun x hx => ih x hx fun hfloat => hv (.item hx hfloat)
    refine ⟨"[" ++ String.intercalate ", " texts ++ "]", by simp only [write, htexts]; rfl, ?_⟩
    rw [toList_intercalate rfl rfl]
    exact spells_list blank_nil blank_space blank_nil (Option.some_ne_none 0).symm hall
  | @dict room xs hnames _ ih =>
    obtain ⟨texts, htexts, hall⟩ := writeEntries_of_forall fun x hx =>
      ih x hx fun hfloat => hv (.value (List.mem_map_of_mem hx) hfloat)
    refine ⟨"\x7b" ++ String.intercalate ", " texts ++ "\x7d", by simp only [Named.toValue, write, htexts]; rfl, ?_⟩
    rw [toList_intercalate rfl rfl]
    exact spells_dict escapes_asciiChar blank_nil blank_space blank_nil (Option.some_ne_none 0).symm hnames hall

end Json

/-! ## Literals -/

/-- The words that truth values become are read as what they stand for. -/
theorem coerceBoolean_word (b : Bool) : coerceBoolean (.str (if b then "true" else "false")) = .bool b := by
  have htrue : Text.lower (Text.strip "true") = "true" := by decide +kernel
  have hfalse : Text.lower (Text.strip "false") = "false" := by decide +kernel
  cases b with
  | true => simp [coerceBoolean, htrue, trueWords]
  | false => simp [coerceBoolean, hfalse, trueWords, falseWords]

/-- A value comes back from the text that it becomes, with the type that it has: an integer, a truth value, a text, or a
list or a dictionary of such values at any depth. -/
theorem coerce_coerce_text {room : Nat} {v : Value} {t : ValueType} (hv : Json.Readable room v) (hfloat : ¬v.HoldsFloat)
    (ht : v.Represents t) : ∃ text, coerce v .string = .ok (.str text) ∧ coerce (.str text) t = .ok v := by
  cases ht with
  | int n =>
    cases hv with
    | int _ h =>
      refine ⟨toString n, ?_, ?_⟩
      · simp only [coerce, coerceString, Value.toText, Value.repr, Value.intText_eq h]
        rfl
      · simp only [coerce, coerceNumber, Decimal.strip_toString, Decimal.intOfText?_toString h]
  | float x => exact absurd (.float x) hfloat
  | bool b => exact ⟨_, rfl, by rw [coerce, coerceBoolean_word]⟩
  | str s => exact ⟨s, rfl, rfl⟩
  | dict es =>
    obtain ⟨text, htext, hspells⟩ := hv.spells_write (l := .literal) hfloat
    refine ⟨text, by simp only [coerce, coerceString, htext]; rfl, ?_⟩
    simp only [coerce, coerceObject, hspells.read_eq]
  | list xs =>
    obtain ⟨text, htext, hspells⟩ := hv.spells_write (l := .literal) hfloat
    refine ⟨text, by simp only [coerce, coerceString, htext]; rfl, ?_⟩
    simp only [coerce, coerceArray, hspells.read_eq]

/-- A dictionary with a name beyond the first plane, a control, and two levels below it. -/
def letter : Named := [("é😀", .list [.int (-12), .null, .bool true, Named.toValue []]), ("\"\n", .str "\x7f")]

theorem coerce_coerce_text_letter : ∃ text,
    coerce letter.toValue .string = .ok (.str text) ∧ coerce (.str text) .object = .ok letter.toValue := by
  have hdigits : (Nat.toDigits 10 12).length ≤ Decimal.maxIntDigits := by decide
  have hreadable : Json.Readable 3 letter.toValue := by
    refine .dict (by decide) fun x hx => ?_
    rcases List.mem_pair.mp hx with rfl | rfl
    · refine .list fun y hy => ?_
      simp only [List.mem_cons, List.not_mem_nil, or_false] at hy
      rcases hy with rfl | rfl | rfl | rfl
      · exact .int _ hdigits
      · exact .null _
      · exact .bool _ _
      · exact .dict Json.nodup_names_nil (by simp)
    · exact .str _ _
  have hplain : ¬letter.toValue.HoldsFloat := by
    simp [letter, Value.holdsFloat_toValue, Value.holdsFloat_list]
  exact coerce_coerce_text hreadable hplain (.dict _)

/-- In its text every character is one of ASCII. -/
example : Json.asciiString "é😀\n\"\x7f" = "\"\\u00e9\\ud83d\\ude00\\n\\\"\\u007f\"" := by
  decide +kernel

end Patchbay
