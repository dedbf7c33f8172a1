import Patchbay.Config
import Patchbay.Proofs.Coercions

/-!
# What a configuration is made of

However settings arrive, as a mapping, in environment variables or in a file, an attempt to configure an engine should
end in one of two ways: with a configuration whose settings are all in range, or with an error of the configuration.
It ends otherwise in a few cases. An infinite depth has no integer part and an interval may be an integer beyond the
doubles; both are overflows, which no handler expects. A value that holds an integer of too many digits has no text,
not even for the message that refuses it. And an interval that is NaN is not below zero, so it passes the check,
though it is not at least zero either.

Contents:
* `Config.Sound`, `Config.Settled`: how an attempt should end.
* `Config.Overlooked`: configurations that the check does not deal with.
* `Setting.Breaks`: raw values whose conversion ends the attempt in another way.
* `Config.SlipsFrom`, `Config.Slips`: mappings that get past the handlers.

Results:
* `settled_checked_iff`: the check deals with all others.
* `settled_convertAll_iff`: so do the check and the conversions together, setting by setting.
* `settled_iff`: how attempts end, for every way that settings arrive.
-/

namespace Patchbay

open Value (IsLong)

/-- A value has a text unless it holds an integer beyond the digit limit. -/
theorem Value.failsWhen_toText (v : Value) : FailsWhen v.HoldsLong v.toText := by
  cases v with
  | str s => exact .ok (by rintro ⟨⟩)
  | _ => exact Value.failsWhen_repr _

/-! ## How an attempt ends -/

namespace Config

/-- A configuration whose settings are in range: a start kind that is not empty, a depth of at least one, an interval of
at least zero, and a policy that there is. -/
inductive Sound : Config → Prop
  | mk {s : String} {n : Int} {y : Float} {p : String} (hs : s ≠ "") (hn : 1 ≤ n)
      (hy : Value.related? .ge (.float y) (.int 0) = some true) (hp : p ∈ policies) :
      Sound ⟨.str s, .int n, .float y, .str p⟩

/-- An attempt that ends with such a configuration, or with an error of the configuration. -/
inductive Settled : Except Raised Config → Prop
  | made {c : Config} (h : c.Sound) : Settled (.ok c)
  | refused {f : Failure} (h : f.family = .config) : Settled (.error (.failure f))

theorem settled_cause {c : Cause} (h : c.family = .config) : Settled (.error (.cause c)) := .refused h

theorem not_settled_fault (f : Fault) : ¬Settled (.error (.fault f)) := nofun

/-! ## The check -/

/-- A configuration whose settings have their types. -/
inductive Typed : Config → Prop
  | mk (s : String) (n : Int) (y : Float) (p : String) : Typed ⟨.str s, .int n, .float y, .str p⟩

/-- A configuration that the check does not deal with: a depth that is too small has no text to refuse it in, or an
interval is NaN while nothing else is wrong. -/
inductive Overlooked : Config → Prop
  | depth {s : String} {n : Int} {y : Float} {p : String} (hs : s ≠ "") (hn : n < 1) (hlong : IsLong n) :
      Overlooked ⟨.str s, .int n, .float y, .str p⟩
  | interval {s : String} {n : Int} {y : Float} {p : String} (hs : s ≠ "") (hn : 1 ≤ n)
      (hy : Binary64.decode y = .nan) (hp : p ∈ policies) : Overlooked ⟨.str s, .int n, .float y, .str p⟩

theorem isBelow_int (m n : Int) : isBelow (.int m) (.int n) = .ok (decide (m < n)) := by
  have hrelated : Value.related? .lt (.int m) (.int n) = some (decide (m < n)) := by
    simp [Value.related?, Value.relatedNumber?, Value.compareNumber, Value.asInt?, Relation.holds, Int.compare_eq_lt,
      Bool.beq_eq_decide_eq]
  rw [isBelow, hrelated]

/-- How a double lies to zero. -/
theorem related?_zero (r : Relation) (y : Float) : Value.related? r (.float y) (.int 0) =
    some (match Binary64.compareInt y 0 with
      | some o => r.holds o
      | none => false) := rfl

/-- A double that is not below zero is at least zero, or it is NaN. -/
theorem isBelow_zero (y : Float) :
    (isBelow (.float y) (.int 0) = .ok true ∧ Binary64.decode y ≠ .nan ∧
        Value.related? .ge (.float y) (.int 0) = some false) ∨
      (isBelow (.float y) (.int 0) = .ok false ∧
        (Binary64.decode y ≠ .nan ↔ Value.related? .ge (.float y) (.int 0) = some true)) := by
  have hnan : Binary64.compareInt y 0 = none ↔ Binary64.decode y = .nan := by
    unfold Binary64.compareInt
    split <;> simp [*]
  rw [isBelow, related?_zero, related?_zero]
  cases hc : Binary64.compareInt y 0 with
  | none => exact .inr ⟨rfl, by simp [hnan.mp hc]⟩
  | some o =>
    have hnumber : Binary64.decode y ≠ .nan := fun h => by rw [hnan.mpr h] at hc; cases hc
    cases o with
    | lt => exact .inl ⟨rfl, hnumber, rfl⟩
    | eq => exact .inr ⟨rfl, by simp [hnumber, Relation.holds]⟩
    | gt => exact .inr ⟨rfl, by simp [hnumber, Relation.holds]⟩

theorem mem_policies_iff (p : String) : (policies.any fun q => (Value.str p).same (.str q)) = true ↔ p ∈ policies := by
  simp [policies, Value.same]

section Checked

variable {s : String} {n : Int} {y : Float} {p : String}

theorem truthy_of_ne (hs : s ≠ "") : (Value.str s).truthy = true := by simpa [Value.truthy] using hs

theorem checked_depth (hs : s ≠ "") (hn : n < 1) : checked ⟨.str s, .int n, .float y, .str p⟩ =
    (do throw (.cause (.depthNotPositive (← Fault.lift (Value.worded (Value.int n).toText))))) := by
  simp only [checked, truthy_of_ne hs, isBelow_int, hn]
  cases Fault.lift (Value.worded (Value.int n).toText) <;> rfl

theorem checked_interval (hs : s ≠ "") (hn : 1 ≤ n) (hy : isBelow (.float y) (.int 0) = .ok true) :
    checked ⟨.str s, .int n, .float y, .str p⟩ =
      .error (.cause (.intervalNegative (Value.floatText y))) := by
  simp only [checked, truthy_of_ne hs, isBelow_int, hy, Int.not_lt.mpr hn]
  rfl

theorem checked_policy (hs : s ≠ "") (hn : 1 ≤ n) (hy : isBelow (.float y) (.int 0) = .ok false) (hp : p ∉ policies) :
    checked ⟨.str s, .int n, .float y, .str p⟩ = .error (.cause (.unknownPolicy (Text.quote p))) := by
  simp only [checked, truthy_of_ne hs, isBelow_int, hy, Int.not_lt.mpr hn, if_neg (mt (mem_policies_iff p).mp hp)]
  rfl

theorem checked_ok (hs : s ≠ "") (hn : 1 ≤ n) (hy : isBelow (.float y) (.int 0) = .ok false) (hp : p ∈ policies) :
    checked ⟨.str s, .int n, .float y, .str p⟩ = .ok ⟨.str s, .int n, .float y, .str p⟩ := by
  simp only [checked, truthy_of_ne hs, isBelow_int, hy, Int.not_lt.mpr hn, if_pos ((mem_policies_iff p).mpr hp)]
  rfl

theorem overlooked_iff : Overlooked ⟨.str s, .int n, .float y, .str p⟩ ↔
    s ≠ "" ∧ (n < 1 ∧ IsLong n ∨ 1 ≤ n ∧ Binary64.decode y = .nan ∧ p ∈ policies) where
  mp
    | .depth hs hn hlong => ⟨hs, .inl ⟨hn, hlong⟩⟩
    | .interval hs hn hy hp => ⟨hs, .inr ⟨hn, hy, hp⟩⟩
  mpr
    | ⟨hs, .inl ⟨hn, hlong⟩⟩ => .depth hs hn hlong
    | ⟨hs, .inr ⟨hn, hy, hp⟩⟩ => .interval hs hn hy hp

end Checked

/-- The check ends as it should, unless it overlooks the configuration. -/
theorem settled_checked_iff {c : Config} (h : c.Typed) : Settled c.checked ↔ ¬c.Overlooked := by
  obtain ⟨s, n, y, p⟩ := h
  rw [overlooked_iff]
  by_cases hs : s = ""
  · subst hs
    exact iff_of_true (settled_cause rfl) fun h => h.1 rfl
  rcases Int.lt_or_le n 1 with hn | hn
  · -- the depth is refused, in a text that it may not have
    rw [checked_depth hs hn]
    have htext := (Value.failsWhen_toText (.int n)).congr Value.holdsLong_int_iff
    generalize (Value.int n).toText = text at htext ⊢
    cases htext with
    | ok hshort => exact iff_of_true (settled_cause rfl) (by simp [hshort, Int.not_le.mpr hn])
    | error hlong => exact iff_of_false (not_settled_fault _) (not_not_intro ⟨hs, .inl ⟨hn, hlong⟩⟩)
  · rcases isBelow_zero y with ⟨hy, hnumber, -⟩ | ⟨hy, hzero⟩
    · rw [checked_interval hs hn hy]
      exact iff_of_true (settled_cause rfl) (by simp [hnumber, Int.not_lt.mpr hn])
    · by_cases hp : p ∈ policies
      · rw [checked_ok hs hn hy hp]
        by_cases hnan : Binary64.decode y = .nan
        · refine iff_of_false (fun h => ?_) (not_not_intro ⟨hs, .inr ⟨hn, hnan, hp⟩⟩)
          obtain ⟨hsound⟩ | _ := h
          cases hsound with
          | mk _ _ hge _ => exact hzero.mpr hge hnan
        · exact iff_of_true (.made (.mk hs hn (hzero.mp hnan) hp)) (by simp [hnan, Int.not_lt.mpr hn])
      · rw [checked_policy hs hn hy hp]
        exact iff_of_true (settled_cause rfl) (by simp [hp, Int.not_lt.mpr hn])

end Config

/-! ## Conversions -/

namespace Setting

/-- A raw value whose conversion ends an attempt in another way than it should: an infinite depth, an interval that is
an integer beyond the doubles, or a value that is refused, or written, without having a text. -/
inductive Breaks : Setting → Value → Prop
  | infinite {y : Float} {negative : Bool} (h : Binary64.decode y = .infinite negative) :
      Breaks .maxPullDepth (.float y)
  | huge {n : Int} (h : Binary64.ofInt? n = none) : Breaks .minIntervalMs (.int n)
  | textless {x : Setting} {raw : Value} (h : raw.HoldsLong)
      (hint : ∀ n, raw = .int n → x = .startKind ∨ x = .missingLiteralPolicy) : Breaks x raw

/-- A raw value that is converted under a name. One of the wrong type or outside the domain is an error of the
configuration. -/
def take (x : Setting) (name : String) (raw : Value) : Except Raised Value :=
  match x.convert raw with
  | .ok v => pure v
  | .error f => match f.kind with
    | .type | .value => do throw (.cause (.invalidSetting name (← Fault.lift (Value.worded raw.repr))))
    | _ => throw (.fault f)

/-- How the conversion of a raw value ends. -/
inductive Taken (x : Setting) (name : String) (raw : Value) : Except Raised Value → Prop
  | converted {v : Value} (h : x.convert raw = .ok v) (hx : ∀ c : Config, c.Typed → (c.set x v).Typed)
      (hsafe : ¬x.Breaks raw) : Taken x name raw (.ok v)
  | refused {shown : String} (h : ∀ v, x.convert raw ≠ .ok v) (hsafe : ¬x.Breaks raw) :
      Taken x name raw (.error (.cause (.invalidSetting name shown)))
  | broken {f : Fault} (h : x.Breaks raw) : Taken x name raw (.error (.fault f))

variable {x : Setting} {name : String} {raw : Value}

/-- Apart from overflows, a conversion breaks over a value without a text. -/
theorem breaks_iff (hint : ∀ n, raw = .int n → x = .startKind ∨ x = .missingLiteralPolicy)
    (hinfinite : x = .maxPullDepth → ∀ y negative, raw = .float y → Binary64.decode y ≠ .infinite negative) :
    x.Breaks raw ↔ raw.HoldsLong := by
  refine ⟨fun h => ?_, fun h => .textless h hint⟩
  cases h with
  | infinite h => exact absurd h (hinfinite rfl _ _ rfl)
  | huge _ => exact absurd (hint _ rfl) (by simp)
  | textless h _ => exact h

/-- A value that is refused is refused in an error of the configuration, if it has a text. -/
theorem taken_of_refused {f : Fault} (h : x.convert raw = .error f) (hf : f = .value ∨ f = .type)
    (hbreaks : x.Breaks raw ↔ raw.HoldsLong) : x.Taken name raw (x.take name raw) := by
  have htake : x.take name raw = (do throw (.cause (.invalidSetting name (← Fault.lift (Value.worded raw.repr))))) := by
    rcases hf with rfl | rfl <;> simp only [take, h] <;> rfl
  have hrepr := Value.failsWhen_repr raw
  rw [htake]
  generalize raw.repr = text at hrepr ⊢
  cases hrepr with
  | ok hshort => exact .refused (fun v hv => by rw [h] at hv; cases hv) (mt hbreaks.mp hshort)
  | error hlong => exact .broken (hbreaks.mpr hlong)

theorem take_ok {v : Value} (h : x.convert raw = .ok v) : x.take name raw = .ok v := by
  simp only [take, h]
  rfl

/-- A setting that is text takes every value that has a text. -/
theorem taken_text (hx : x = .startKind ∨ x = .missingLiteralPolicy) : x.Taken name raw (x.take name raw) := by
  have hbreaks : x.Breaks raw ↔ raw.HoldsLong :=
    breaks_iff (fun _ _ => hx) fun hdepth => by subst hdepth; simp at hx
  have hconvert : x.convert raw = (do return .str (← raw.toText)) := by
    rcases hx with rfl | rfl <;> rfl
  have htext := raw.failsWhen_toText
  generalize raw.toText = text at htext hconvert
  cases htext with
  | @ok s hshort =>
    have hconvert : x.convert raw = .ok (.str s) := hconvert
    rw [take_ok hconvert]
    refine .converted hconvert (fun c hc => ?_) (mt hbreaks.mp hshort)
    obtain ⟨s', n, y, p⟩ := hc
    rcases hx with rfl | rfl
    · exact .mk s n y p
    · exact .mk s' n y s
  | @error f hlong hf => exact taken_of_refused hconvert hf hbreaks

section Numbers

theorem typed_setDepth (n : Int) {c : Config} (hc : c.Typed) : (c.set .maxPullDepth (.int n)).Typed := by
  obtain ⟨s, _, y, p⟩ := hc
  exact .mk s n y p

theorem typed_setInterval (y : Float) {c : Config} (hc : c.Typed) : (c.set .minIntervalMs (.float y)).Typed := by
  obtain ⟨s, n, _, p⟩ := hc
  exact .mk s n y p

/-- A depth is a number that is cut, or the numeral of an integer. -/
theorem taken_maxPullDepth : Taken .maxPullDepth name raw (take .maxPullDepth name raw) := by
  have hconverted {n : Int} (h : convert .maxPullDepth raw = .ok (.int n)) (hsafe : ¬Breaks .maxPullDepth raw) :
      Taken .maxPullDepth name raw (take .maxPullDepth name raw) := by
    rw [take_ok h]
    exact .converted h (fun _ => typed_setDepth n) hsafe
  have hbreaks (hint : ∀ n, raw ≠ .int n)
      (hfinite : ∀ y negative, raw = .float y → Binary64.decode y ≠ .infinite negative) :
      Breaks .maxPullDepth raw ↔ raw.HoldsLong := breaks_iff (fun n hn => absurd hn (hint n)) fun _ => hfinite
  cases raw with
  | float y =>
    cases hy : Binary64.decode y with
    | infinite negative =>
      have hoverflow : take .maxPullDepth name (.float y) = .error (.fault .overflow) := by
        simp only [take, convert, Expr.toInteger, Value.integerBeside, hy]
        rfl
      exact hoverflow ▸ .broken (.infinite hy)
    | nan =>
      have hconvert : convert .maxPullDepth (.float y) = .error .value := by
        simp only [convert, Expr.toInteger, Value.integerBeside, hy]
      refine taken_of_refused hconvert (.inl rfl) (hbreaks (by simp) fun _ _ heq h => ?_)
      cases heq
      rw [hy] at h
      cases h
    | finite z =>
      have hconvert : convert .maxPullDepth (.float y) = .ok (.int z.truncInt) := by
        simp only [convert, Expr.toInteger, Value.integerBeside, hy]
      refine hconverted hconvert (mt (hbreaks (by simp) fun _ _ heq h => ?_).mp (by rintro ⟨⟩))
      cases heq
      rw [hy] at h
      cases h
  | str s =>
    cases hs : Decimal.intOfText? 10 s with
    | none =>
      have hconvert : convert .maxPullDepth (.str s) = .error .value := by simp only [convert, Expr.toInteger, hs]
      exact taken_of_refused hconvert (.inl rfl) (hbreaks (by simp) (by simp))
    | some n =>
      have hconvert : convert .maxPullDepth (.str s) = .ok (.int n) := by simp only [convert, Expr.toInteger, hs]
      exact hconverted hconvert (mt (hbreaks (by simp) (by simp)).mp (by rintro ⟨⟩))
  | int n =>
    refine hconverted rfl fun h => ?_
    cases h with
    | textless _ hint => exact absurd (hint n rfl) (by simp)
  | bool b => exact hconverted rfl (mt (hbreaks (by simp) (by simp)).mp (by rintro ⟨⟩))
  | _ => exact taken_of_refused rfl (.inr rfl) (hbreaks (by simp) (by simp))

/-- An interval is a number, or the numeral of one. -/
theorem taken_minIntervalMs : Taken .minIntervalMs name raw (take .minIntervalMs name raw) := by
  have hconverted {y : Float} (h : convert .minIntervalMs raw = .ok (.float y)) (hsafe : ¬Breaks .minIntervalMs raw) :
      Taken .minIntervalMs name raw (take .minIntervalMs name raw) := by
    rw [take_ok h]
    exact .converted h (fun _ => typed_setInterval y) hsafe
  have hbreaks (hint : ∀ n, raw ≠ .int n) : Breaks .minIntervalMs raw ↔ raw.HoldsLong :=
    breaks_iff (fun n hn => absurd hn (hint n)) (by simp)
  cases raw with
  | int n =>
    cases hn : Binary64.ofInt? n with
    | none =>
      have hoverflow : take .minIntervalMs name (.int n) = .error (.fault .overflow) := by
        simp only [take, convert, Expr.toFloat, Value.asInt?, Value.floatOfInt, hn]
        rfl
      exact hoverflow ▸ .broken (.huge hn)
    | some y =>
      have hconvert : convert .minIntervalMs (.int n) = .ok (.float y) := by
        simp only [convert, Expr.toFloat, Value.asInt?, Value.floatOfInt, hn]
        rfl
      refine hconverted hconvert fun h => ?_
      cases h with
      | huge h => rw [hn] at h; cases h
      | textless _ hint => exact absurd (hint n rfl) (by simp)
  | bool b =>
    have hconvert : ∃ y, convert .minIntervalMs (.bool b) = .ok (.float y) := by
      cases b <;> exact ⟨_, rfl⟩
    obtain ⟨y, hy⟩ := hconvert
    exact hconverted hy (mt (hbreaks (by simp)).mp (by rintro ⟨⟩))
  | float y => exact hconverted rfl (mt (hbreaks (by simp)).mp (by rintro ⟨⟩))
  | str s =>
    cases hs : Decimal.floatOfText? s with
    | none =>
      have hconvert : convert .minIntervalMs (.str s) = .error .value := by
        simp only [convert, Expr.toFloat, hs]
        rfl
      exact taken_of_refused hconvert (.inl rfl) (hbreaks (by simp))
    | some y =>
      have hconvert : convert .minIntervalMs (.str s) = .ok (.float y) := by
        simp only [convert, Expr.toFloat, hs]
        rfl
      exact hconverted hconvert (mt (hbreaks (by simp)).mp (by rintro ⟨⟩))
  | _ => exact taken_of_refused rfl (.inr rfl) (hbreaks (by simp))

end Numbers

/-- How the conversion of a raw value ends, for every setting. -/
theorem taken_take (x : Setting) (name : String) (raw : Value) : x.Taken name raw (x.take name raw) := by
  cases x with
  | startKind => exact taken_text (.inl rfl)
  | missingLiteralPolicy => exact taken_text (.inr rfl)
  | maxPullDepth => exact taken_maxPullDepth
  | minIntervalMs => exact taken_minIntervalMs

end Setting

/-! ## Mappings -/

namespace Config

/-- Whether a mapping whose names are known slips through when it is put over a configuration: a conversion breaks after
others that did not fail, or all settings convert and the check overlooks what they come to. -/
inductive SlipsFrom : Config → Named → Prop
  | checked {c : Config} (h : c.Overlooked) : SlipsFrom c []
  | here {c : Config} {x : Setting} {name : String} {raw : Value} {rest : Named} (hx : Setting.ofName? name = some x)
      (h : x.Breaks raw) : SlipsFrom c ((name, raw) :: rest)
  | later {c : Config} {x : Setting} {name : String} {raw v : Value} {rest : Named} (hx : Setting.ofName? name = some x)
      (hv : x.convert raw = .ok v) (h : SlipsFrom (c.set x v) rest) : SlipsFrom c ((name, raw) :: rest)

/-- Whether a mapping slips through: all of its names are known, and it slips through over the defaults. -/
def Slips (values : Named) : Prop := (∀ name ∈ values.names, (Setting.ofName? name).isSome = true) ∧ SlipsFrom {} values

theorem convertAll_cons {name : String} {x : Setting} (hx : Setting.ofName? name = some x) (raw : Value)
    (rest : Named) : convertAll ((name, raw) :: rest) = (do
      let v ← x.take name raw
      return (name, v) :: (← convertAll rest)) := by
  simp only [convertAll, hx, Setting.take]
  cases x.convert raw with
  | ok v => rfl
  | error f =>
    obtain ⟨kind, words⟩ := f
    cases kind with
    | type => cases Fault.lift (Value.worded raw.repr) <;> rfl
    | value => cases Fault.lift (Value.worded raw.repr) <;> rfl
    | _ => rfl

theorem override_cons {name : String} {x : Setting} (hx : Setting.ofName? name = some x) (c : Config) (v : Value)
    (rest : Named) : override c ((name, v) :: rest) = override (c.set x v) rest := by
  simp only [override, List.foldlM_cons, hx]
  rfl

/-- Putting a mapping with known names over a configuration ends as it should, unless the mapping slips through. -/
theorem settled_convertAll_iff {values : Named} (hnames : ∀ name ∈ values.names, (Setting.ofName? name).isSome = true)
    {c : Config} (hc : c.Typed) : Settled (do override c (← convertAll values)) ↔ ¬SlipsFrom c values := by
  induction values generalizing c with
  | nil =>
    refine (settled_checked_iff hc).trans (not_congr ⟨.checked, fun h => ?_⟩)
    cases h with
    | checked h => exact h
  | cons e rest ih =>
    obtain ⟨name, raw⟩ := e
    obtain ⟨hname, hrest⟩ := List.forall_mem_cons.mp hnames
    obtain ⟨x, hx⟩ := Option.isSome_iff_exists.mp hname
    rw [convertAll_cons hx]
    have htaken := x.taken_take name raw
    generalize x.take name raw = result at htaken
    cases htaken with
    | broken h => exact iff_of_false (not_settled_fault _) (not_not_intro (.here hx h))
    | refused hnot hsafe =>
      refine iff_of_true (settled_cause rfl) fun h => ?_
      cases h with
      | here hx' h => cases hx.symm.trans hx'; exact hsafe h
      | later hx' hv _ => cases hx.symm.trans hx'; exact hnot _ hv
    | @converted v hv htyped hsafe =>
      have hrest := ih hrest (htyped c hc)
      have hslips : SlipsFrom c ((name, raw) :: rest) ↔ SlipsFrom (c.set x v) rest := by
        refine ⟨fun h => ?_, .later hx hv⟩
        cases h with
        | here hx' h => cases hx.symm.trans hx'; exact absurd h hsafe
        | later hx' hv' h =>
          cases hx.symm.trans hx'
          cases hv.symm.trans hv'
          exact h
      rw [hslips, ← hrest]
      cases convertAll rest with
      | error r => rfl
      | ok vs => exact iff_of_eq (congrArg Settled (override_cons hx c v vs))

theorem typed_default : ({} : Config).Typed := .mk _ _ _ _

/-- A mapping configures an engine as it should, unless it slips through. -/
theorem settled_ofMapping_iff (values : Named) : Settled (ofMapping values) ↔ ¬Slips values := by
  unfold ofMapping
  dsimp only
  split
  · next hunknown =>
    have hnames : ∀ name ∈ values.names, (Setting.ofName? name).isSome = true := by
      simpa [Option.isSome_iff_ne_none] using hunknown
    rw [Slips, and_iff_right hnames]
    exact settled_convertAll_iff hnames typed_default
  · next hunknown =>
    refine iff_of_true (settled_cause rfl) fun h => hunknown ?_
    simpa [Option.isSome_iff_ne_none] using h.1

/-! ## Environment variables and files -/

/-- The values of environment variables are texts. -/
def texts (environment : List (String × String)) : Named := environment.map fun (name, s) => (name, .str s)

/-- The mapping of the settings that environment variables hold. -/
def settingsOf (environment : Named) : Named :=
  Setting.all.filterMap fun x => (environment.get? x.environmentName).map fun v => (x.name, v)

theorem ofName?_name (x : Setting) : Setting.ofName? x.name = some x := by
  cases x <;> decide

theorem isSome_of_mem_settingsOf {environment : Named} :
    ∀ name ∈ (settingsOf environment).names, (Setting.ofName? name).isSome = true := by
  intro name hname
  obtain ⟨e, he, rfl⟩ := List.mem_map.mp hname
  obtain ⟨x, -, hx⟩ := List.mem_filterMap.mp he
  obtain ⟨v, -, rfl⟩ := Option.map_eq_some_iff.mp hx
  simp [ofName?_name]

theorem settled_ofFile_iff (path : String) (text : Option String) : Settled (ofFile path text) ↔
    ∀ s, text = some s → Json.read .literal s ≠ .error .tooManyDigits ∧
      ∀ es, Json.read .literal s = .ok (.dict es) → ¬Slips (membersOf es) := by
  cases text with
  | none => exact iff_of_true (settled_cause rfl) nofun
  | some s =>
    simp only [ofFile, Option.some.injEq, forall_eq']
    cases hread : Json.read .literal s with
    | error refusal =>
      cases refusal with
      | malformed => exact iff_of_true (settled_cause rfl) ⟨nofun, nofun⟩
      | tooManyDigits => exact iff_of_false (not_settled_fault _) fun h => h.1 rfl
    | ok v =>
      cases v with
      | dict es =>
        refine (settled_ofMapping_iff _).trans ⟨fun h => ⟨nofun, fun _ heq => ?_⟩, fun h => h.2 es rfl⟩
        cases heq
        exact h
      | _ => exact iff_of_true (settled_cause rfl) ⟨nofun, nofun⟩

/-- However settings arrive, an attempt ends as it should unless the mapping of them slips through, or the file holds an
integer beyond the digit limit. -/
theorem settled_iff (values : Named) (environment : List (String × String)) (path : String) (text : Option String) :
    (Settled (ofMapping values) ↔ ¬Slips values) ∧
      (Settled (ofEnvironment (texts environment)) ↔ ¬SlipsFrom {} (settingsOf (texts environment))) ∧
      (Settled (ofFile path text) ↔ ∀ s, text = some s → Json.read .literal s ≠ .error .tooManyDigits ∧
        ∀ es, Json.read .literal s = .ok (.dict es) → ¬Slips (membersOf es)) := by
  refine ⟨settled_ofMapping_iff values, ?_, settled_ofFile_iff path text⟩
  rw [ofEnvironment, settled_ofMapping_iff, ← settingsOf, Slips, and_iff_right isSome_of_mem_settingsOf]

/-- The settings of an environment that holds one of them. -/
theorem settingsOf_interval (s : String) :
    settingsOf (texts [("BLOCKFLOW_MIN_INTERVAL_MS", s)]) = [("min_interval_ms", .str s)] := by
  have hnames : Setting.all.map Setting.environmentName = ["BLOCKFLOW_START_KIND", "BLOCKFLOW_MAX_PULL_DEPTH",
      "BLOCKFLOW_MIN_INTERVAL_MS", "BLOCKFLOW_MISSING_LITERAL_POLICY"] := by decide +kernel
  simp only [Setting.all, List.map_cons, List.map_nil, List.cons.injEq, and_true] at hnames
  simp [settingsOf, Setting.all, texts, hnames, Named.get?]
  rfl

/-- Whether a configuration ends in an overflow. -/
def overflows : Except Raised Config → Bool
  | .error (.fault ⟨.overflow, none⟩) => true
  | _ => false

theorem eq_of_overflows {r : Except Raised Config} (h : overflows r = true) : r = .error (.fault .overflow) := by
  unfold overflows at h
  split at h
  · rfl
  · cases h

/-- An interval that is NaN is accepted from the environment, and an infinite depth in a file ends in an overflow. -/
theorem unsettled_nan_infinite : ¬Settled (ofEnvironment (texts [("BLOCKFLOW_MIN_INTERVAL_MS", "nan")])) ∧
    ofFile "settings.json" (some "\x7b\"max_pull_depth\": Infinity\x7d") = .error (.fault .overflow) := by
  refine ⟨?_, eq_of_overflows (by decide +kernel)⟩
  have hnan : Decimal.floatOfText? "nan" = some Binary64.nan := by decide +kernel
  have hbits : Binary64.nan.toBits = 0x7FF8000000000000 := by decide +kernel
  have hdecode : Binary64.decode Binary64.nan = .nan := by
    simp only [Binary64.decode, hbits]
    rfl
  have hconvert : Setting.convert .minIntervalMs (.str "nan") = .ok (.float Binary64.nan) := by
    simp only [Setting.convert, Expr.toFloat, hnan]
    rfl
  rw [ofEnvironment, settled_ofMapping_iff, Classical.not_not, ← settingsOf, settingsOf_interval]
  refine ⟨by decide, .later (x := .minIntervalMs) (by decide) hconvert (.checked ?_)⟩
  exact .interval (by decide) (by decide) hdecode (by decide)

end Config

end Patchbay
