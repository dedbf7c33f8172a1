import Mathlib.Data.List.TakeWhile
import Mathlib.Tactic.IntervalCases
import Patchbay.Json.Reader
import Patchbay.Json.Writer
import Patchbay.Proofs.RoundTrip

/-!
# Texts that spell a value

Two writers share one reader. They differ in how they escape characters and in the blanks that they put between the
parts of an array or an object, and the reader minds neither. So what a text has to be for a reader to take it for a
value is said once, part by part: a word, the digits of an integer, characters between quotes each of which is escaped
in some way, and parts between brackets with commas and any blanks around them.

Contents:
* `Escapes`: a text that stands for a character inside a string.
* `quoted`: a string between quotes.
* `Ends`: what may follow a value.
* `Spells`: a text that is read as a value.
* `enclosed`: parts between brackets.

Results:
* `escapes_openChar`, `escapes_asciiChar`: both ways to escape characters.
* `stringFrom_quoted`, `unsignedFrom_toDigits`: strings and integers are read.
* `spells_list`, `spells_dict`: arrays and objects are read when their parts are.
-/

namespace Patchbay.Json

open Text

/-! ## Escapes -/

section Escapes

variable {l : Limits} {c : Char} {rest : List Char}

theorem isHexDigit_digitChar {d : Nat} (hd : d < 16) : isHexDigit (Nat.digitChar d) = true := by
  interval_cases d <;> rfl

theorem hexValue_digitChar {d : Nat} (hd : d < 16) : hexValue (Nat.digitChar d) = d := by
  interval_cases d <;> rfl

/-- The digits of a code unit, with the zeros in front. -/
theorem toList_hexText {n : Nat} (hn : n < 0x10000) : (hexText 4 n).toList =
    [Nat.digitChar (n / 4096), Nat.digitChar (n / 256 % 16), Nat.digitChar (n / 16 % 16), Nat.digitChar (n % 16)] := by
  have hstep {m : Nat} (hm : 16 ≤ m) : Nat.toDigits 16 m = Nat.toDigits 16 (m / 16) ++ [Nat.digitChar (m % 16)] :=
    Nat.toDigits_of_base_le (by decide) hm
  have hlast {m : Nat} (hm : m < 16) : Nat.toDigits 16 m = [Nat.digitChar m] := Nat.toDigits_of_lt_base hm
  have hparts : n / 16 / 16 = n / 256 ∧ n / 256 / 16 = n / 4096 := by omega
  rw [hexText, String.toList_ofList]
  -- by the number of digits
  rcases Nat.lt_or_ge n 16 with h1 | h1
  · rw [hlast h1, show n / 4096 = 0 by omega, show n / 256 % 16 = 0 by omega, show n / 16 % 16 = 0 by omega,
      Nat.mod_eq_of_lt h1]
    rfl
  rw [hstep h1]
  rcases Nat.lt_or_ge n 256 with h2 | h2
  · rw [hlast (m := n / 16) (by omega), show n / 4096 = 0 by omega, show n / 256 % 16 = 0 by omega,
      Nat.mod_eq_of_lt (a := n / 16) (by omega)]
    rfl
  rw [hstep (m := n / 16) (by omega), hparts.1]
  rcases Nat.lt_or_ge n 4096 with h3 | h3
  · rw [hlast (m := n / 256) (by omega), show n / 4096 = 0 by omega, Nat.mod_eq_of_lt (a := n / 256) (by omega)]
    rfl
  rw [hstep (m := n / 256) (by omega), hparts.2, hlast (m := n / 4096) (by omega)]
  rfl

/-- A code unit is read off its four digits. -/
theorem codeUnit?_hexText {n : Nat} (hn : n < 0x10000) (rest : List Char) :
    codeUnit? ((hexText 4 n).toList ++ rest) = some (n, rest) := by
  have h3 : n / 4096 < 16 := by omega
  have h2 : n / 256 % 16 < 16 := Nat.mod_lt _ (by decide)
  have h1 : n / 16 % 16 < 16 := Nat.mod_lt _ (by decide)
  have h0 : n % 16 < 16 := Nat.mod_lt _ (by decide)
  have hvalue : 16 * (16 * (16 * (n / 4096) + n / 256 % 16) + n / 16 % 16) + n % 16 = n := by omega
  rw [toList_hexText hn]
  simp only [List.cons_append, List.nil_append, codeUnit?, List.all_cons, List.all_nil, isHexDigit_digitChar, h0, h1,
    h2, h3, Bool.and_true, hexNumber, List.foldl_cons, List.foldl_nil, hexValue_digitChar, Nat.mul_zero, Nat.zero_add,
    if_true, hvalue]

/-- No character lies among the halves of surrogate pairs. -/
theorem toNat_valid (c : Char) : c.toNat < 0xD800 ∨ (0xDFFF < c.toNat ∧ c.toNat < 0x110000) := c.valid

/-- A character of the first plane is read off its code. -/
theorem unicodeEscape?_unit (hc : c.toNat < 0x10000) :
    unicodeEscape? l ((hexText 4 c.toNat).toList ++ rest) = some (c, rest) := by
  have hhigh : (0xD800 ≤ c.toNat && c.toNat < 0xDC00) = false := by
    have := toNat_valid c
    simp only [Bool.and_eq_false_iff, decide_eq_false_iff_not]
    omega
  have hlow : (0xDC00 ≤ c.toNat && c.toNat < 0xE000) = false := by
    have := toNat_valid c
    simp only [Bool.and_eq_false_iff, decide_eq_false_iff_not]
    omega
  simp only [unicodeEscape?, codeUnit?_hexText hc, hhigh, hlow, Bool.false_eq_true, if_false, Char.ofNat_toNat]

/-- Two halves of a surrogate pair are read as one character. -/
theorem unicodeEscape?_halves {hi lo : Nat} (hhi : 0xD800 ≤ hi ∧ hi < 0xDC00) (hlo : 0xDC00 ≤ lo ∧ lo < 0xE000) :
    unicodeEscape? l ((hexText 4 hi).toList ++ '\\' :: 'u' :: ((hexText 4 lo).toList ++ rest)) =
      some (Char.ofNat (0x10000 + (hi - 0xD800) * 0x400 + (lo - 0xDC00)), rest) := by
  have hhigh : (0xD800 ≤ hi && hi < 0xDC00) = true := by simp [hhi]
  have hlow : (0xDC00 ≤ lo && lo < 0xE000) = true := by simp [hlo]
  simp only [unicodeEscape?, codeUnit?_hexText (show hi < 0x10000 by omega),
    codeUnit?_hexText (show lo < 0x10000 by omega), hhigh, hlow, if_true]

/-- Whether a text stands for a character inside a string: a reader takes it for the character, and goes on after it. -/
structure Escapes (l : Limits) (text : List Char) (c : Char) : Prop where
  nonempty : text ≠ []
  read : ∀ fuel acc rest, stringFrom l (fuel + 1) acc (text ++ rest) = stringFrom l fuel (c :: acc) rest

theorem escapes_letter {e : Char} (he : plainEscape? e = some c) (hu : e ≠ 'u') : Escapes l ['\\', e] c :=
  ⟨by simp, fun fuel acc rest => by simp [stringFrom, he, hu]⟩

theorem escapes_unit (hc : c.toNat < 0x10000) : Escapes l (unitEscape c.toNat).toList c :=
  ⟨by simp [unitEscape], fun fuel acc rest => by simp [unitEscape, stringFrom, unicodeEscape?_unit hc]⟩

/-- Two halves are written for a character beyond the first plane, and make it up again. -/
theorem halves_of_beyond (hc : 0x10000 ≤ c.toNat) {hi lo : Nat} (hhi : hi = 0xD800 + (c.toNat - 0x10000) / 0x400)
    (hlo : lo = 0xDC00 + (c.toNat - 0x10000) % 0x400) : (0xD800 ≤ hi ∧ hi < 0xDC00) ∧ (0xDC00 ≤ lo ∧ lo < 0xE000) ∧
      0x10000 + (hi - 0xD800) * 0x400 + (lo - 0xDC00) = c.toNat := by
  have hvalid := toNat_valid c
  omega

theorem escapes_halves (hc : 0x10000 ≤ c.toNat) {hi lo : Nat} (hhi : hi = 0xD800 + (c.toNat - 0x10000) / 0x400)
    (hlo : lo = 0xDC00 + (c.toNat - 0x10000) % 0x400) : Escapes l (unitEscape hi ++ unitEscape lo).toList c := by
  obtain ⟨hhigh, hlow, hsum⟩ := halves_of_beyond hc hhi hlo
  refine ⟨by simp [unitEscape], fun fuel acc rest => ?_⟩
  have hread : unicodeEscape? l ((hexText 4 hi).toList ++ '\\' :: 'u' :: ((hexText 4 lo).toList ++ rest)) =
      some (c, rest) := by
    rw [unicodeEscape?_halves hhigh hlow, hsum, Char.ofNat_toNat]
  simp [unitEscape, stringFrom, hread]

theorem escapes_itself (hquote : c ≠ '"') (hslash : c ≠ '\\') (hcontrol : ¬c.toNat < 32) : Escapes l [c] c :=
  ⟨by simp, fun fuel acc rest => by simp [stringFrom, hquote, hslash, hcontrol]⟩

theorem escapes_short {e : String} (h : shortEscape? c = some e) : Escapes l e.toList c := by
  unfold shortEscape? at h
  split at h <;> first | cases h; exact escapes_letter rfl (by decide) | cases h

/-- The characters that end a string or begin an escape have short escapes. -/
theorem plain_of_shortEscape? (h : shortEscape? c = none) : c ≠ '"' ∧ c ≠ '\\' := by
  constructor
  · rintro rfl
    cases h
  · rintro rfl
    cases h

theorem escapes_openChar (c : Char) : Escapes l (openChar c).toList c := by
  unfold openChar
  split
  · next e he => exact escapes_short he
  · next hnone =>
    split
    · next hcontrol => exact escapes_unit (by omega)
    · next hcontrol =>
      obtain ⟨hquote, hslash⟩ := plain_of_shortEscape? hnone
      simpa using escapes_itself hquote hslash hcontrol

theorem escapes_asciiChar (c : Char) : Escapes l (asciiChar c).toList c := by
  unfold asciiChar
  split
  · next e he => exact escapes_short he
  · next hnone =>
    dsimp only
    split
    · next hprintable =>
      obtain ⟨hquote, hslash⟩ := plain_of_shortEscape? hnone
      simp only [Bool.and_eq_true, decide_eq_true_eq] at hprintable
      simpa using escapes_itself hquote hslash (Nat.not_lt.mpr hprintable.1)
    · split
      · next hfirst => exact escapes_unit hfirst
      · next hbeyond => exact escapes_halves (Nat.not_lt.mp hbeyond) rfl rfl

end Escapes

/-! ## Strings -/

section Strings

variable {l : Limits} {enc : Char → String}

/-- The characters of a string, each escaped in some way. -/
def escaped (enc : Char → String) (cs : List Char) : List Char := cs.flatMap fun c => (enc c).toList

/-- A string between quotes. -/
def quoted (enc : Char → String) (s : String) : List Char := '"' :: (escaped enc s.toList ++ ['"'])

theorem toList_openString (s : String) : (openString s).toList = quoted openChar s := by
  simp [openString, quoted, escaped, List.flatMap_map]

theorem toList_asciiString (s : String) : (asciiString s).toList = quoted asciiChar s := by
  simp [asciiString, quoted, escaped, List.flatMap_map]

/-- A string is read up to its closing quote. -/
theorem stringFrom_escaped (henc : ∀ c, Escapes l (enc c).toList c) (cs rest : List Char) {acc : List Char} {fuel : Nat}
    (hfuel : cs.length < fuel) :
    stringFrom l fuel acc (escaped enc cs ++ '"' :: rest) = .ok (String.ofList (acc.reverse ++ cs), rest) := by
  induction cs generalizing acc fuel with
  | nil =>
    obtain ⟨fuel, rfl⟩ := Nat.exists_eq_add_one_of_ne_zero (Nat.ne_of_gt hfuel)
    simp [escaped, stringFrom]
  | cons c cs ih =>
    obtain ⟨fuel, rfl⟩ := Nat.exists_eq_add_one_of_ne_zero (Nat.ne_of_gt (Nat.zero_lt_of_lt hfuel))
    rw [escaped, List.flatMap_cons, List.append_assoc, (henc c).read, ← escaped, ih (Nat.lt_of_succ_lt_succ hfuel)]
    simp

theorem length_le_escaped (henc : ∀ c, Escapes l (enc c).toList c) (cs : List Char) :
    cs.length ≤ (escaped enc cs).length := by
  induction cs with
  | nil => simp
  | cons c cs ih =>
    have hc := List.length_pos_of_ne_nil (henc c).nonempty
    rw [escaped, List.flatMap_cons, ← escaped, List.length_append, List.length_cons]
    omega

/-- A reader that is past the opening quote has room for the whole string. -/
theorem stringFrom_quoted (henc : ∀ c, Escapes l (enc c).toList c) (s : String) (rest : List Char) :
    stringFrom l ((escaped enc s.toList ++ '"' :: rest).length + 1) [] (escaped enc s.toList ++ '"' :: rest) =
      .ok (s, rest) := by
  have hlen := length_le_escaped henc s.toList
  rw [stringFrom_escaped henc s.toList rest (by simp only [List.length_append]; omega)]
  simp

end Strings

/-! ## Integers -/

section Integers

variable {n : Nat} {rest : List Char}

/-- Whether a text may follow a value: a number does not go on with it. -/
def Ends (rest : List Char) : Prop := ∀ c ∈ rest.head?, c.isDigit = false ∧ c ≠ '.' ∧ c ≠ 'e' ∧ c ≠ 'E'

theorem ends_nil : Ends [] := by simp [Ends]

theorem ends_comma (cs : List Char) : Ends (',' :: cs) := by simp [Ends]

theorem ends_gap {c : Char} (hc : isGap c = true) (cs : List Char) : Ends (c :: cs) := by
  simp only [isGap, Bool.or_eq_true, beq_iff_eq] at hc
  rcases hc with ((rfl | rfl) | rfl) | rfl <;> simp [Ends]

theorem natOfDigits_toDigits (n : Nat) : Decimal.natOfDigits (Nat.toDigits 10 n) = n :=
  Nat.ofDigitChars_ten_toDigits

theorem isDigit_of_mem_toDigits {c : Char} (hc : c ∈ Nat.toDigits 10 n) : c.isDigit = true :=
  Nat.isDigit_of_mem_toDigits (by decide) (by decide) hc

/-- The digits of a number begin with a zero only when it is zero. -/
theorem toDigits_zero_cons {more : List Char} (h : Nat.toDigits 10 n = '0' :: more) : n = 0 ∧ more = [] := by
  induction n using Nat.strongRecOn generalizing more with
  | _ n ih =>
    rcases Nat.lt_or_ge n 10 with hlt | hge
    · rw [Nat.toDigits_of_lt_base hlt, List.cons.injEq, Nat.digitChar_eq_zero] at h
      exact ⟨h.1, h.2.symm⟩
    · rw [Nat.toDigits_of_base_le (by decide) hge] at h
      cases hq : Nat.toDigits 10 (n / 10) with
      | nil => exact absurd hq Nat.toDigits_ne_nil
      | cons c cs =>
        rw [hq, List.cons_append, List.cons.injEq] at h
        have hzero := (ih (n / 10) (by omega) (h.1 ▸ hq)).1
        omega

/-- What follows a number is neither part of it nor a fraction or an exponent. -/
theorem Ends.number (h : Ends rest) : rest.takeWhile Char.isDigit = [] ∧ rest.dropWhile Char.isDigit = rest ∧
    fractionOf rest = ([], rest) ∧ exponentOf rest = (none, rest) := by
  cases rest with
  | nil => exact ⟨rfl, rfl, rfl, rfl⟩
  | cons c cs =>
    obtain ⟨hdigit, hpoint, hsmall, hcapital⟩ := h c rfl
    refine ⟨by simp [hdigit], by simp [hdigit], ?_, by simp [exponentOf, hsmall, hcapital]⟩
    unfold fractionOf
    split
    · next heq => exact absurd (List.cons.inj heq).1 hpoint
    · rfl

/-- Digits are read up to what follows them. -/
theorem unsignedFrom_toDigits (negative : Bool) (hlen : (Nat.toDigits 10 n).length ≤ Decimal.maxIntDigits)
    (hrest : Ends rest) : unsignedFrom negative (Nat.toDigits 10 n ++ rest) =
      .ok (.int (if negative then -n else n), rest) := by
  have hdigits : ∀ c ∈ Nat.toDigits 10 n, c.isDigit = true := fun c hc => isDigit_of_mem_toDigits hc
  obtain ⟨hnone, hall, hfraction, hexponent⟩ := hrest.number
  have htake : (Nat.toDigits 10 n ++ rest).takeWhile Char.isDigit = Nat.toDigits 10 n := by
    rw [List.takeWhile_append_of_pos hdigits, hnone, List.append_nil]
  have hdrop : (Nat.toDigits 10 n ++ rest).dropWhile Char.isDigit = rest := by
    rw [List.dropWhile_append_of_pos hdigits, hall]
  have hne : (Nat.toDigits 10 n).isEmpty = false := by simp
  have hfew : ¬(Nat.toDigits 10 n).length > Decimal.maxIntDigits := Nat.not_lt.mpr hlen
  simp only [unsignedFrom, htake, hdrop, hne, Bool.false_eq_true, if_false]
  split
  · next more hzero =>
    -- a single zero
    obtain ⟨rfl, rfl⟩ := toDigits_zero_cons hzero
    simp only [List.nil_append, hfraction, hexponent]
    rfl
  · simp only [hfraction, hexponent, hfew, natOfDigits_toDigits]
    rfl

end Integers

/-! ## What the first character tells -/

section First

variable {l : Limits} {fuel : Nat} {room : Option Nat} {cs : List Char}

theorem valueFrom_quote : valueFrom l (fuel + 1) room ('"' :: cs) =
    match stringFrom l (cs.length + 1) [] cs with
    | .ok (s, rest) => .ok (.str s, rest)
    | .error e => .error e := by
  rw [valueFrom]
  rfl

theorem valueFrom_bracket (hroom : room ≠ some 0) : valueFrom l (fuel + 1) room ('[' :: cs) =
    itemsFrom l fuel (room.map (· - 1)) [] true (skipGap cs) := by
  rw [valueFrom]
  simp [hroom]

theorem valueFrom_brace (hroom : room ≠ some 0) : valueFrom l (fuel + 1) room ('\x7b' :: cs) =
    membersFrom l fuel (room.map (· - 1)) [] true (skipGap cs) := by
  rw [valueFrom]
  simp [hroom]

theorem beq_of_isDigit {c d : Char} (hc : c.isDigit = true) (hd : d.isDigit = false) : (c == d) = false := by
  rw [beq_eq_false_iff_ne]
  rintro rfl
  rw [hc] at hd
  cases hd

/-- A digit begins a number and nothing else. -/
theorem valueFrom_digit {c : Char} (hc : c.isDigit = true) :
    valueFrom l (fuel + 1) room (c :: cs) = unsignedFrom false (c :: cs) := by
  rw [valueFrom]
  simp only [beq_of_isDigit hc (show '"'.isDigit = false from rfl),
    beq_of_isDigit hc (show '\x7b'.isDigit = false from rfl), beq_of_isDigit hc (show '['.isDigit = false from rfl),
    beq_of_isDigit hc (show 'n'.isDigit = false from rfl), beq_of_isDigit hc (show 't'.isDigit = false from rfl),
    beq_of_isDigit hc (show 'f'.isDigit = false from rfl), beq_of_isDigit hc (show 'N'.isDigit = false from rfl),
    beq_of_isDigit hc (show 'I'.isDigit = false from rfl), beq_of_isDigit hc (show '-'.isDigit = false from rfl)]
  rfl

theorem valueFrom_minus {c : Char} (hc : c.isDigit = true) :
    valueFrom l (fuel + 1) room ('-' :: c :: cs) = unsignedFrom true (c :: cs) := by
  have hword : ((c :: cs).head? == some 'I') = false := beq_of_isDigit hc rfl
  rw [valueFrom]
  simp only [hword]
  rfl

/-- A digit is no blank. -/
theorem isGap_of_isDigit {c : Char} (hc : c.isDigit = true) : isGap c = false := by
  simp only [isGap, beq_of_isDigit hc (show ' '.isDigit = false from rfl),
    beq_of_isDigit hc (show '\t'.isDigit = false from rfl), beq_of_isDigit hc (show '\n'.isDigit = false from rfl),
    beq_of_isDigit hc (show '\r'.isDigit = false from rfl), Bool.or_self]

end First

/-- A word is read as the value that it stands for. -/
theorem wordFrom_append (word : String) (v : Value) (rest : List Char) :
    wordFrom word v (word.toList ++ rest) = .ok (v, rest) := by
  have hprefix : word.toList.isPrefixOf (word.toList ++ rest) = true :=
    List.isPrefixOf_iff_prefix.mpr (List.prefix_append _ _)
  simp [wordFrom, dropWord?, hprefix, ← String.length_toList]

/-! ## Values -/

/-- Whether a reader with a room takes a text for a value, and the text does not begin as what stands between two
values or after them. -/
structure Spells (l : Limits) (room : Option Nat) (text : List Char) (v : Value) : Prop where
  head : ∃ c cs, text = c :: cs ∧ isGap c = false ∧ c ≠ ']'
  read : ∀ fuel rest, 2 * text.length ≤ fuel → Ends rest → valueFrom l fuel room (text ++ rest) = .ok (v, rest)

theorem skipGap_cons {c : Char} (hc : isGap c = false) (cs : List Char) : skipGap (c :: cs) = c :: cs := by
  simp [skipGap, hc]

section Leaves

variable {l : Limits} {room : Option Nat} {text : List Char} {v : Value}

theorem Spells.skipGap (h : Spells l room text v) (cs : List Char) : skipGap (text ++ cs) = text ++ cs := by
  obtain ⟨c, _, rfl, hgap, -⟩ := h.head
  rw [List.cons_append, skipGap_cons hgap]

/-- A reader has steps left where a text is left. -/
theorem Spells.of_succ (head : ∃ c cs, text = c :: cs ∧ isGap c = false ∧ c ≠ ']')
    (h : ∀ fuel rest, 2 * text.length ≤ fuel + 1 → Ends rest →
      valueFrom l (fuel + 1) room (text ++ rest) = .ok (v, rest)) : Spells l room text v := by
  refine ⟨head, fun fuel rest hfuel hrest => ?_⟩
  obtain ⟨c, cs, htext, -⟩ := head
  cases fuel with
  | zero => simp [htext] at hfuel
  | succ fuel => exact h fuel rest hfuel hrest

theorem spells_null : Spells l room "null".toList .null :=
  .of_succ ⟨'n', _, rfl, rfl, by decide⟩ fun _ rest _ _ => wordFrom_append "null" .null rest

theorem spells_bool (b : Bool) : Spells l room (if b then "true" else "false").toList (.bool b) := by
  cases b with
  | true => exact .of_succ ⟨'t', _, rfl, rfl, by decide⟩ fun _ rest _ _ => wordFrom_append "true" (.bool true) rest
  | false => exact .of_succ ⟨'f', _, rfl, rfl, by decide⟩ fun _ rest _ _ => wordFrom_append "false" (.bool false) rest

theorem spells_str {enc : Char → String} (henc : ∀ c, Escapes l (enc c).toList c) (s : String) :
    Spells l room (quoted enc s) (.str s) := by
  refine .of_succ ⟨'"', _, rfl, rfl, by decide⟩ fun fuel rest _ _ => ?_
  rw [quoted, List.cons_append, List.append_assoc, List.singleton_append, valueFrom_quote, stringFrom_quoted henc]

/-- The digits of an integer, with a minus where it is negative. -/
theorem toList_toString_int (n : Int) :
    (toString n).toList = if 0 ≤ n then Nat.toDigits 10 n.natAbs else '-' :: Nat.toDigits 10 n.natAbs := by
  rw [Int.toString_eq_repr, Int.repr_eq_if]
  split
  · rw [show n.toNat = n.natAbs by omega, Nat.toList_repr]
  · rw [show (-n).toNat = n.natAbs by omega, String.toList_append, Nat.toList_repr]
    rfl

theorem spells_int {n : Int} (h : (Nat.toDigits 10 n.natAbs).length ≤ Decimal.maxIntDigits) :
    Spells l room (toString n).toList (.int n) := by
  obtain ⟨c, cs, hdigits⟩ := List.exists_cons_of_ne_nil (Nat.toDigits_ne_nil (n := n.natAbs) (b := 10))
  have hc : c.isDigit = true := isDigit_of_mem_toDigits (hdigits ▸ List.mem_cons_self : c ∈ Nat.toDigits 10 n.natAbs)
  rw [toList_toString_int]
  split
  · next hsign =>
    refine .of_succ ⟨c, cs, hdigits, isGap_of_isDigit hc, beq_eq_false_iff_ne.mp (beq_of_isDigit hc rfl)⟩
      fun fuel rest _ hrest => ?_
    have hread := unsignedFrom_toDigits false h hrest
    rw [hdigits, List.cons_append, valueFrom_digit hc, ← List.cons_append, ← hdigits, hread,
      if_neg Bool.false_ne_true, Int.natAbs_of_nonneg hsign]
  · next hsign =>
    refine .of_succ ⟨'-', _, rfl, rfl, by decide⟩ fun fuel rest _ hrest => ?_
    have hread := unsignedFrom_toDigits true h hrest
    have hneg : -(n.natAbs : Int) = n := by omega
    rw [hdigits, List.cons_append, List.cons_append, valueFrom_minus hc, ← List.cons_append, ← hdigits, hread,
      if_pos rfl, hneg]

end Leaves

/-! ## Arrays and objects -/

/-- Whether a text is blanks only. -/
def Blank (cs : List Char) : Prop := ∀ c ∈ cs, isGap c = true

theorem blank_nil : Blank [] := by simp [Blank]

theorem blank_space : Blank [' '] := by simp [Blank, isGap]

theorem Blank.skipGap {blanks : List Char} (h : Blank blanks) (cs : List Char) :
    skipGap (blanks ++ cs) = Json.skipGap cs := List.dropWhile_append_of_pos h

/-- Parts after the first one, each after a comma and blanks. -/
def following (between : List Char) (parts : List (List Char)) : List Char :=
  parts.flatMap fun part => ',' :: (between ++ part)

/-- Parts between two brackets, with blanks after the first bracket, after each comma and before the last bracket. -/
def enclosed (openMark closeMark : Char) (before between after : List Char) : List (List Char) → List Char
  | [] => [openMark, closeMark]
  | part :: parts => openMark :: (before ++ (part ++ (following between parts ++ (after ++ [closeMark]))))

theorem following_cons (between part : List Char) (parts : List (List Char)) (cs : List Char) :
    following between (part :: parts) ++ cs = ',' :: (between ++ (part ++ (following between parts ++ cs))) := by
  simp [following]

theorem length_following_cons (between part : List Char) (parts : List (List Char)) :
    part.length + (following between parts).length + 1 ≤ (following between (part :: parts)).length := by
  simp only [following, List.flatMap_cons, List.length_cons, List.length_append]
  omega

theorem intercalate_cons (sep first : List Char) (others : List (List Char)) :
    sep.intercalate (first :: others) = first ++ others.flatMap (sep ++ ·) := by
  induction others generalizing first with
  | nil => simp
  | cons x others ih => rw [List.intercalate_cons_cons, ih, List.flatMap_cons, List.append_assoc, List.append_assoc]

section Containers

variable {l : Limits} {room : Option Nat} {before between after : List Char}

/-- What comes after a part ends a number. -/
theorem ends_following (hafter : Blank after) {close : Char} (hclose : Ends [close]) (between : List Char)
    (parts : List (List Char)) (rest : List Char) : Ends (following between parts ++ (after ++ close :: rest)) := by
  cases parts with
  | cons part parts => exact ends_comma _
  | nil =>
    cases after with
    | nil => exact hclose
    | cons c cs => exact ends_gap (hafter c List.mem_cons_self) _

/-- What a reader of an array does after an item. -/
def itemsAfter (l : Limits) (fuel : Nat) (room : Option Nat) (acc : List Value) (cs : List Char) :
    Except Refusal (Value × List Char) :=
  match Json.skipGap cs with
  | ',' :: more => itemsFrom l fuel room acc false (Json.skipGap more)
  | ']' :: more => .ok (.list acc.reverse, more)
  | _ => .error .malformed

/-- An item is read, and then what follows it. -/
theorem itemsFrom_item {text : List Char} {x : Value} (hx : Spells l room text x) {fuel : Nat}
    (hfuel : 2 * text.length ≤ fuel) {cs : List Char} (hcs : Ends cs) (acc : List Value) (first : Bool) :
    itemsFrom l (fuel + 1) room acc first (text ++ cs) = itemsAfter l fuel room (x :: acc) cs := by
  have hopen : ¬(first && (text ++ cs).head? == some ']') = true := by
    obtain ⟨c, _, rfl, -, hc⟩ := hx.head
    simp [hc]
  rw [itemsFrom, if_neg hopen, hx.read fuel cs hfuel hcs]
  rfl

/-- Items are read up to the closing bracket. -/
theorem itemsFrom_items (hbetween : Blank between) (hafter : Blank after) {text : List Char} {texts : List (List Char)}
    {x : Value} {xs acc : List Value} (hx : Spells l room text x) (hxs : List.Forall₂ (Spells l room) texts xs)
    {fuel : Nat} {first : Bool} {rest : List Char}
    (hfuel : 2 * (text.length + (following between texts).length + 1) ≤ fuel) :
    itemsFrom l fuel room acc first (text ++ (following between texts ++ (after ++ ']' :: rest))) =
      .ok (.list (acc.reverse ++ x :: xs), rest) := by
  have hends texts := ends_following hafter (show Ends [']'] by simp [Ends]) between texts rest
  obtain ⟨fuel, rfl⟩ := Nat.exists_eq_add_one_of_ne_zero (show fuel ≠ 0 by omega)
  induction hxs generalizing text x acc fuel first with
  | nil =>
    rw [itemsFrom_item hx (by omega) (hends [])]
    simp [itemsAfter, following, hafter.skipGap, skipGap_cons (show isGap ']' = false from rfl)]
  | @cons text' y texts ys hy hys ih =>
    have hlen := length_following_cons between text' texts
    rw [itemsFrom_item hx (by omega) (hends _), following_cons]
    simp only [itemsAfter, skipGap_cons (show isGap ',' = false from rfl), hbetween.skipGap, hy.skipGap]
    obtain ⟨fuel, rfl⟩ := Nat.exists_eq_add_one_of_ne_zero (show fuel ≠ 0 by omega)
    rw [ih hy fuel (by omega)]
    simp

/-- Whether a text spells a member: the name between quotes, a colon and a blank, and the value. -/
def SpellsMember (l : Limits) (room : Option Nat) (enc : Char → String) (text : List Char) (x : String × Value) :
    Prop := ∃ value, text = quoted enc x.1 ++ ':' :: ' ' :: value ∧ Spells l room value x.2

variable {enc : Char → String}

theorem SpellsMember.skipGap {text : List Char} {x : String × Value} (h : SpellsMember l room enc text x)
    (cs : List Char) : skipGap (text ++ cs) = text ++ cs := by
  obtain ⟨value, rfl, -⟩ := h
  rw [quoted, List.cons_append, List.cons_append, skipGap_cons rfl]

/-- What a reader of an object does after a member. -/
def membersAfter (l : Limits) (fuel : Nat) (room : Option Nat) (acc : Named) (cs : List Char) :
    Except Refusal (Value × List Char) :=
  match Json.skipGap cs with
  | ',' :: more => membersFrom l fuel room acc false (Json.skipGap more)
  | '\x7d' :: more => .ok (acc.toValue, more)
  | _ => .error .malformed

/-- A member is read, and then what follows it. -/
theorem membersFrom_member (henc : ∀ c, Escapes l (enc c).toList c) {text : List Char} {x : String × Value}
    (hx : SpellsMember l room enc text x) {fuel : Nat} (hfuel : 2 * text.length ≤ fuel) {cs : List Char} (hcs : Ends cs)
    (acc : Named) (first : Bool) : membersFrom l (fuel + 1) room acc first (text ++ cs) =
      membersAfter l fuel room (acc.set x.1 x.2) cs := by
  obtain ⟨value, rfl, hx⟩ := hx
  have htext : quoted enc x.1 ++ ':' :: ' ' :: value ++ cs =
      '"' :: (escaped enc x.1.toList ++ '"' :: ':' :: ' ' :: (value ++ cs)) := by
    simp [quoted]
  have hlen : value.length ≤ (quoted enc x.1 ++ ':' :: ' ' :: value).length := by
    simp only [List.length_append, List.length_cons]
    omega
  have hblank : Json.skipGap (' ' :: (value ++ cs)) = value ++ cs := hx.skipGap cs
  have hopen : ¬(first && ('"' :: (escaped enc x.1.toList ++ '"' :: ':' :: ' ' :: (value ++ cs))).head? ==
      some '\x7d') = true := by
    simp
  rw [htext, membersFrom, if_neg hopen]
  simp only [stringFrom_quoted henc, skipGap_cons (show isGap ':' = false from rfl), hblank,
    hx.read fuel cs (by omega) hcs]
  rfl

/-- A name that is new comes last. -/
theorem set_of_nodup {acc xs : Named} {x : String × Value} (hnames : (Named.names (acc ++ x :: xs)).Nodup) :
    acc.set x.1 x.2 = acc ++ [x] := by
  have hnew : x.1 ∉ acc.names := by
    intro hin
    rw [Named.names, List.map_append] at hnames
    exact (List.nodup_append.mp hnames).2.2 x.1 hin x.1 List.mem_cons_self rfl
  have happend := Named.set_append_of_not_mem hnew x.2 []
  rwa [List.append_nil] at happend

/-- Members are read up to the closing brace. -/
theorem membersFrom_members (henc : ∀ c, Escapes l (enc c).toList c) (hbetween : Blank between) (hafter : Blank after)
    {text : List Char} {texts : List (List Char)} {x : String × Value} {xs acc : Named}
    (hx : SpellsMember l room enc text x) (hxs : List.Forall₂ (SpellsMember l room enc) texts xs)
    (hnames : (Named.names (acc ++ x :: xs)).Nodup) {fuel : Nat} {first : Bool} {rest : List Char}
    (hfuel : 2 * (text.length + (following between texts).length + 1) ≤ fuel) :
    membersFrom l fuel room acc first (text ++ (following between texts ++ (after ++ '\x7d' :: rest))) =
      .ok (Named.toValue (acc ++ x :: xs), rest) := by
  have hends texts := ends_following hafter (show Ends ['\x7d'] by simp [Ends]) between texts rest
  obtain ⟨fuel, rfl⟩ := Nat.exists_eq_add_one_of_ne_zero (show fuel ≠ 0 by omega)
  induction hxs generalizing text x acc fuel first with
  | nil =>
    rw [membersFrom_member henc hx (by omega) (hends []), set_of_nodup hnames]
    simp [membersAfter, following, hafter.skipGap, skipGap_cons (show isGap '\x7d' = false from rfl)]
  | @cons text' y texts ys hy hys ih =>
    have hlen := length_following_cons between text' texts
    rw [membersFrom_member henc hx (by omega) (hends _), following_cons, set_of_nodup hnames]
    simp only [membersAfter, skipGap_cons (show isGap ',' = false from rfl), hbetween.skipGap, hy.skipGap]
    have hmoved : (acc ++ [x]) ++ y :: ys = acc ++ x :: y :: ys := by simp
    obtain ⟨fuel, rfl⟩ := Nat.exists_eq_add_one_of_ne_zero (show fuel ≠ 0 by omega)
    rw [ih hy (hmoved ▸ hnames) fuel (by omega), hmoved]

/-- Items between brackets spell a list. -/
theorem spells_list (hbefore : Blank before) (hbetween : Blank between) (hafter : Blank after) (hroom : room ≠ some 0)
    {texts : List (List Char)} {xs : List Value} (hxs : List.Forall₂ (Spells l (room.map (· - 1))) texts xs) :
    Spells l room (enclosed '[' ']' before between after texts) (.list xs) := by
  cases hxs with
  | nil =>
    refine .of_succ ⟨'[', _, rfl, rfl, by decide⟩ fun fuel rest hfuel _ => ?_
    rw [enclosed, List.length_cons, List.length_singleton] at hfuel
    obtain ⟨fuel, rfl⟩ := Nat.exists_eq_add_one_of_ne_zero (show fuel ≠ 0 by omega)
    rw [enclosed, List.cons_append, valueFrom_bracket hroom, List.cons_append, skipGap_cons rfl, itemsFrom]
    rfl
  | cons hx hxs =>
    refine .of_succ ⟨'[', _, rfl, rfl, by decide⟩ fun fuel rest hfuel _ => ?_
    simp only [enclosed, List.length_cons, List.length_append] at hfuel
    simp only [enclosed, List.cons_append, List.append_assoc, List.nil_append]
    rw [valueFrom_bracket hroom, hbefore.skipGap, hx.skipGap, itemsFrom_items hbetween hafter hx hxs (by omega)]
    rfl

/-- Members between braces spell a dictionary whose names differ. -/
theorem spells_dict (henc : ∀ c, Escapes l (enc c).toList c) (hbefore : Blank before) (hbetween : Blank between)
    (hafter : Blank after) (hroom : room ≠ some 0) {texts : List (List Char)} {xs : Named} (hnames : xs.names.Nodup)
    (hxs : List.Forall₂ (SpellsMember l (room.map (· - 1)) enc) texts xs) :
    Spells l room (enclosed '\x7b' '\x7d' before between after texts) xs.toValue := by
  cases hxs with
  | nil =>
    refine .of_succ ⟨'\x7b', _, rfl, rfl, by decide⟩ fun fuel rest hfuel _ => ?_
    rw [enclosed, List.length_cons, List.length_singleton] at hfuel
    obtain ⟨fuel, rfl⟩ := Nat.exists_eq_add_one_of_ne_zero (show fuel ≠ 0 by omega)
    rw [enclosed, List.cons_append, valueFrom_brace hroom, List.cons_append, skipGap_cons rfl]
    unfold membersFrom
    rfl
  | cons hx hxs =>
    refine .of_succ ⟨'\x7b', _, rfl, rfl, by decide⟩ fun fuel rest hfuel _ => ?_
    simp only [enclosed, List.length_cons, List.length_append] at hfuel
    simp only [enclosed, List.cons_append, List.append_assoc, List.nil_append]
    rw [valueFrom_brace hroom, hbefore.skipGap, hx.skipGap,
      membersFrom_members henc hbetween hafter hx hxs hnames (by omega)]
    rfl

end Containers

/-- A text that spells a value in the room that a reader has at first is read as the value. -/
theorem Spells.read_eq {l : Limits} {text : String} {v : Value} (h : Spells l l.depth text.toList v) :
    Json.read l text = .ok v := by
  have hstart := h.skipGap []
  have hvalue := h.read (2 * text.toList.length + 2) [] (by omega) ends_nil
  rw [List.append_nil] at hstart hvalue
  simp only [Json.read, hstart, hvalue]
  rfl

end Patchbay.Json
