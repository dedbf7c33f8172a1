import Mathlib.Algebra.GroupWithZero.Nat
import Patchbay.Proofs.Shapes

/-!
# Trees are no larger than their text

A token stands for at least one character of the text, and a quoted one for each character of its body besides. What a
parser makes of tokens is no larger than the tokens it takes away: every node of a tree is paid for by a token, and a
constant text by the characters between its quotes, whose escapes only make it shorter. So no display in the tree of a
text has more items, and no constant more characters, than the text has. What no expression may use counts for one, as
if nothing stood below it.

Contents:
* `Tree.extent`: the size of a tree; `width`: the size of tokens.
* `Spends`: what the functions of the parser give, against the tokens they take away.

Results:
* `width_of_tokens?`: tokens against their text.
* `extent_le_of_parse?`: a tree against its text.
-/

namespace Patchbay.Expr

/-! ## Sizes -/

mutual

/-- The number of nodes of a tree that may be evaluated, with the characters of its constants. -/
def Tree.extent : Tree → Nat
  | .const (.str s _) => s.length + 1
  | .binary _ l r => l.extent + r.extent + 1
  | .unary _ e => e.extent + 1
  | .logic _ es => extents es + 1
  | .compare l rest => l.extent + comparisonExtents rest + 1
  | .choice test body orelse => test.extent + body.extent + orelse.extent + 1
  | .subscript v i => v.extent + i.extent + 1
  | .slice lo hi step => boundExtent lo + boundExtent hi + boundExtent step + 1
  | .list es => extents es + 1
  | .tuple es => extents es + 1
  | .dict es => entryExtents es + 1
  | .call _ args _ _ => extents args + 1
  | _ => 1

/-- The size of several trees. -/
def extents : List Tree → Nat
  | [] => 0
  | t :: ts => t.extent + extents ts

/-- The size of the right operands of comparisons. -/
def comparisonExtents : List (CompareOp × Tree) → Nat
  | [] => 0
  | c :: cs => comparisonExtent c + comparisonExtents cs

/-- The size of the right operand of a comparison. -/
def comparisonExtent : CompareOp × Tree → Nat
  | (_, t) => t.extent

/-- The size of a tree that may be absent. -/
def boundExtent : Option Tree → Nat
  | none => 0
  | some t => t.extent

/-- The size of the entries of a dictionary. -/
def entryExtents : List (Option Tree × Tree) → Nat
  | [] => 0
  | e :: es => entryExtent e + entryExtents es

/-- The size of an entry of a dictionary. -/
def entryExtent : Option Tree × Tree → Nat
  | (k, v) => boundExtent k + v.extent

end

/-- The size of a token: one, and the characters between its quotes. -/
def Token.width : Token → Nat
  | .quoted q => q.body.length + 1
  | .number c => (Tree.const c).extent
  | _ => 1

/-- The size of tokens. -/
def width (ts : List Token) : Nat := (ts.map Token.width).sum

@[simp] theorem width_nil : width [] = 0 := rfl

@[simp] theorem width_cons (t : Token) (ts : List Token) : width (t :: ts) = t.width + width ts := rfl

theorem Tree.extent_pos (t : Tree) : 1 ≤ t.extent := by
  cases t with
  | const c => cases c <;> simp [Tree.extent]
  | _ => simp [Tree.extent]

theorem Token.width_pos (t : Token) : 1 ≤ t.width := by
  cases t <;> simp [Token.width, Tree.extent_pos]

theorem extents_append (ts us : List Tree) : extents (ts ++ us) = extents ts + extents us := by
  induction ts with
  | nil => simp [extents]
  | cons t ts ih => rw [List.cons_append, extents, extents, ih, Nat.add_assoc]

@[simp] theorem extents_reverse (ts : List Tree) : extents ts.reverse = extents ts := by
  induction ts with
  | nil => rfl
  | cons t ts ih =>
    rw [List.reverse_cons, extents_append, ih, extents, extents, extents]
    omega

theorem entryExtents_append (es fs : List (Option Tree × Tree)) :
    entryExtents (es ++ fs) = entryExtents es + entryExtents fs := by
  induction es with
  | nil => simp [entryExtents]
  | cons e es ih => rw [List.cons_append, entryExtents, entryExtents, ih, Nat.add_assoc]

@[simp] theorem entryExtents_reverse (es : List (Option Tree × Tree)) :
    entryExtents es.reverse = entryExtents es := by
  induction es with
  | nil => rfl
  | cons e es ih =>
    rw [List.reverse_cons, entryExtents_append, ih, entryExtents, entryExtents, entryExtents]
    omega

/-! ## Tokens of a text -/

section Tokens

open Gives

/-- Whether so many characters at least are taken off a text. -/
def Takes {α : Type} (least : Nat) (cs : List Char) (r : α × List Char) : Prop := r.2.length + least ≤ cs.length

theorem digitRun?_takes (isDigit : Char → Bool) (cs : List Char) : Gives (Takes 1 cs) (digitRun? isDigit cs) := by
  fun_induction digitRun? isDigit cs with
  | case1 => exact fail
  | case2 c h => exact give (by simp [Takes])
  | case3 c h => exact fail
  | case4 c more h ih => exact ih.map fun r hr => by simp only [Takes, List.length_cons] at hr ⊢; omega
  | case5 c more h => exact fail
  | case6 c d more hd h => exact fail
  | case7 c d more hd h hdigit ih => exact ih.map fun r hr => by simp only [Takes, List.length_cons] at hr ⊢; omega
  | case8 c d more hd h hdigit => exact give (by simp [Takes])

theorem markedNumber?_takes (base : Nat) (cs : List Char) : Gives (Takes 1 cs) (markedNumber? base cs) := by
  unfold markedNumber?
  dsimp only
  split
  · exact fail
  · next ds rest hrun =>
    have htakes := digitRun?_takes _ _ _ hrun
    split
    · exact fail
    · refine give ?_
      simp only [Takes] at htakes ⊢
      split at htakes
      · simp only [List.length_cons]
        omega
      · exact htakes

theorem fractionRun?_takes (cs : List Char) : Gives (Takes 0 cs) (fractionRun? cs) := by
  unfold fractionRun?
  split
  · split
    · exact fun r hr => Nat.le_of_succ_le (digitRun?_takes _ _ r hr)
    · exact give (Nat.le_refl _)
  · exact give (Nat.le_refl _)

/-- The digits of an exponent, behind its sign. -/
theorem signedRun_takes {cs r : List Char} (hr : r.length ≤ cs.length) (negative : Bool) :
    Gives (Takes 0 cs) ((digitRun? Char.isDigit r).map fun (ds, r) =>
      (some (if negative then -(Decimal.natOfDigits ds : Int) else Decimal.natOfDigits ds), r)) := by
  refine (digitRun?_takes _ r).map fun x hx => ?_
  simp only [Takes] at hx ⊢
  omega

theorem exponentRun?_takes (cs : List Char) : Gives (Takes 0 cs) (exponentRun? cs) := by
  unfold exponentRun?
  dsimp only
  split
  · split
    · split
      · exact signedRun_takes (by simp only [List.length_cons]; omega) false
      · exact signedRun_takes (by simp only [List.length_cons]; omega) true
      · split
        · exact signedRun_takes (by simp) false
        · exact give (Nat.le_refl _)
      · exact give (Nat.le_refl _)
    · exact give (Nat.le_refl _)
  · exact give (Nat.le_refl _)

/-- What is left after a number is within any bound on what is left after its point, or on all that follows the digits
when there is no point. -/
theorem numberTail?_le {cs : List Char} {n : Nat} (hpoint : ∀ rest, cs = '.' :: rest → rest.length ≤ n)
    (hplain : (∀ rest, cs ≠ '.' :: rest) → cs.length ≤ n) (whole : List Char) :
    Gives (fun r => r.2.length ≤ n) (numberTail? whole cs) := by
  unfold numberTail?
  dsimp only
  -- what follows the point, or the digits, goes on with the exponent and the mark
  split
  case' h_1 rest =>
    refine Gives.bind (P := fun x : Bool × List Char × List Char => x.2.2.length ≤ n)
      ((fractionRun?_takes rest).map fun _ h => Nat.le_trans h (hpoint rest rfl))
      ?_
    rintro ⟨point, fraction, after⟩ hafter
  case' h_2 hdot =>
    refine Gives.bind (P := fun x : Bool × List Char × List Char => x.2.2.length ≤ n)
      (give (hplain hdot)) ?_
    rintro ⟨point, fraction, after⟩ hafter
  all_goals
    refine (exponentRun?_takes after).bind ?_
    rintro ⟨exponent, rest⟩ hrest
    simp only [Takes] at hafter hrest ⊢
    repeat' split
    all_goals first | exact fail | refine give ?_
    all_goals simp only [List.length_cons, List.length_nil] at hrest ⊢
    all_goals omega

theorem number?_takes (cs : List Char) : Gives (Takes 1 cs) (number? cs) := by
  unfold number?
  split
  · next rest =>
    exact fun r hr => Nat.succ_le_succ (numberTail?_le (fun rest' h => by cases h; exact Nat.le_refl _)
      (fun h => absurd rfl (h rest)) [] r hr)
  · split
    · refine fun r hr => ?_
      have htakes := markedNumber?_takes _ _ r hr
      simp only [Takes, List.length_drop] at htakes ⊢
      omega
    · split
      · next whole rest hrun =>
        have htakes := digitRun?_takes _ _ _ hrun
        have htail : Gives (fun r => r.2.length ≤ rest.length) (numberTail? whole rest) :=
          numberTail?_le (fun rest' h => by rw [h]; simp) (fun _ => Nat.le_refl _) whole
        refine fun r hr => ?_
        have hr := htail r hr
        simp only [Takes] at htakes ⊢
        omega
      · exact fail

/-- No number is a text. -/
theorem number?_extent (cs : List Char) : Gives (fun r => (Tree.const r.1).extent = 1) (number? cs) := by
  have htail (whole cs : List Char) : Gives (fun r => (Tree.const r.1).extent = 1) (numberTail? whole cs) := by
    unfold numberTail?
    dsimp only
    split <;> refine whatever fun _ => whatever fun _ => ?_
    all_goals
      repeat' split
      all_goals first | exact fail | exact give rfl
  unfold number?
  split
  · exact htail _ _
  · split
    · unfold markedNumber?
      dsimp only
      repeat' split
      all_goals first | exact fail | exact give rfl
    · split
      · exact htail _ _
      · exact fail

/-- A body in quotes is no longer than what is taken away for it. -/
theorem quotedBody?_le (closing acc cs : List Char) :
    Gives (fun r => r.1.length + r.2.length ≤ acc.length + cs.length) (quotedBody? closing acc cs) := by
  fun_induction quotedBody? closing acc cs with
  | case1 => exact fail
  | case2 acc c rest ih => exact fun r hr => by have := ih r hr; simp only [List.length_cons] at this ⊢; omega
  | case3 acc c rest hslash hclosing => exact give (by simp)
  | case4 => exact fail
  | case5 acc c rest hslash hclosing hline ih =>
    exact fun r hr => by have := ih r hr; simp only [List.length_cons] at this ⊢; omega

theorem quoted?_le (letters cs : List Char) :
    Gives (fun r => r.1.body.length + 1 + r.2.length ≤ cs.length) (quoted? letters cs) := by
  unfold quoted?
  split
  · next a b c rest =>
    split
    · refine (quotedBody?_le _ _ _).map fun r hr => ?_
      simp only [List.length_cons, List.length_nil] at hr ⊢
      omega
    · split
      · exact give (by simp only [List.length_cons, List.length_nil]; omega)
      · refine (quotedBody?_le _ _ _).map fun r hr => ?_
        simp only [List.length_cons, List.length_nil] at hr ⊢
        omega
  · split
    · exact give (by simp)
    · exact fail
  · exact fail

theorem operator?_takes {cs : List Char} (hcs : cs ≠ []) : Gives (Takes 1 cs) (operator? cs) := by
  unfold operator?
  split
  · next o ho =>
    have hlong : ∀ o ∈ longOperators, 1 ≤ o.length := by decide
    have ho := hlong o (List.mem_of_find?_eq_some ho)
    have hpos := List.length_pos_iff.mpr hcs
    refine give ?_
    simp only [Takes, List.length_drop]
    omega
  · split
    · split
      · exact give (by simp [Takes])
      · exact fail
    · exact fail

theorem length_unifyLines_le (cs : List Char) : (unifyLines cs).length ≤ cs.length := by
  fun_induction unifyLines cs with
  | case1 rest ih => simp only [List.length_cons]; omega
  | case2 rest _ ih => simp only [List.length_cons]; omega
  | case3 c rest _ _ ih => simp only [List.length_cons]; omega
  | case4 => exact Nat.le_refl _

theorem width_reverse (ts : List Token) : width ts.reverse = width ts := by
  simp [width, List.sum_reverse]

theorem tokensFrom?_le : ∀ (fuel : Nat) (awaited : List String) (acc : List Token) (cs : List Char),
    Gives (fun ts => width ts ≤ width acc + cs.length) (tokensFrom? fuel awaited acc cs)
  | 0, _, _, _ => fail
  | fuel + 1, awaited, acc, [] => by
    unfold tokensFrom?
    split
    · exact give (by simp [width_reverse])
    · exact fail
  | fuel + 1, awaited, acc, c :: rest => by
    -- each token goes in front of the others, and takes its size off the text
    have hnext (awaited : List String) (acc' : List Token) (cs' : List Char)
        (h : width acc' + cs'.length ≤ width acc + (c :: rest).length) :
        Gives (fun ts => width ts ≤ width acc + (c :: rest).length) (tokensFrom? fuel awaited acc' cs') :=
      fun ts hts => Nat.le_trans (tokensFrom?_le fuel awaited acc' cs' ts hts) h
    unfold tokensFrom?
    split
    · exact hnext _ _ _ (by simp)
    split
    · have hdrop := (List.dropWhile_suffix (· ≠ '\n') : rest.dropWhile (· ≠ '\n') <:+ rest).length_le
      exact hnext _ _ _ (by simp only [List.length_cons]; omega)
    split
    · refine hnext _ _ _ ?_
      split <;> simp only [width_cons, Token.width, List.length_cons] <;> omega
    split
    · split
      · split
        · exact fail
        · exact hnext _ _ _ (by simp only [List.length_cons]; omega)
      · exact fail
    split
    · split
      · next q rest' hq =>
        have hle : q.body.length + 1 + rest'.length ≤ (c :: rest).length := quoted?_le _ _ _ hq
        exact hnext _ _ _ (by simp only [width_cons, Token.width]; omega)
      · exact fail
    split
    · split
      · next n rest' hn =>
        have htakes := number?_takes _ _ hn
        have hextent : (Tree.const n).extent = 1 := number?_extent _ _ hn
        exact hnext _ _ _ (by simp only [Takes] at htakes; simp only [width_cons, Token.width]; omega)
      · exact fail
    split
    · next hname =>
      have hafter : ((c :: rest).dropWhile isNameLike).length + 1 ≤ (c :: rest).length := by
        rw [List.dropWhile_cons_of_pos hname]
        exact Nat.succ_le_succ (List.dropWhile_suffix isNameLike).length_le
      dsimp only
      split
      · split
        · next q rest' hq =>
          have hle : q.body.length + 1 + rest'.length ≤ _ := quoted?_le _ _ _ hq
          exact hnext _ _ _ (by simp only [width_cons, Token.width]; omega)
        · exact fail
      · split
        · exact hnext _ _ _ (by simp only [width_cons, Token.width]; omega)
        · exact fail
    · split
      · next o rest' ho =>
        have htakes := operator?_takes (List.cons_ne_nil c rest) _ ho
        split
        · exact hnext _ _ _ (by simp only [Takes] at htakes; simp only [width_cons, Token.width]; omega)
        · exact fail
      · exact fail

/-- The tokens of a text are no larger than the text. -/
theorem width_of_tokens? {cs : List Char} {ts : List Token} (h : tokens? cs = some ts) : width ts ≤ cs.length := by
  have hle := tokensFrom?_le _ _ _ _ ts h
  have hlines := length_unifyLines_le cs
  simp only [width_nil] at hle
  omega

end Tokens

/-! ## Constant texts -/

section Constants

open Gives

theorem length_octalRun_le (cs : List Char) : (octalRun cs).2.length ≤ cs.length := by
  simp [octalRun]

theorem hexRun?_le (count : Nat) (cs : List Char) : Gives (fun r => r.2.length ≤ cs.length) (hexRun? count cs) := by
  unfold hexRun?
  dsimp only
  split
  · exact give (by simp)
  · exact fail

/-- A character written as an escape, and the characters after it. -/
theorem escaped_le {fuel : Nat} (ih : ∀ cs, Gives (fun ds => ds.length ≤ cs.length) (decodeFrom? fuel cs))
    {c : Char} {rest : List Char} {o : Option (Nat × List Char)}
    (ho : Gives (fun r => r.2.length ≤ (c :: rest).length) o) :
    Gives (fun ds => ds.length ≤ ('\\' :: c :: rest).length) (do
      let (n, rest) ← o
      let d ← charOf? n
      return d :: (← decodeFrom? fuel rest)) := by
  refine ho.bind ?_
  rintro ⟨n, rest'⟩ hrest
  refine whatever fun d => (ih rest').bind fun ds hds => give ?_
  simp only [List.length_cons] at hrest ⊢
  omega

/-- Escapes only make a text shorter. -/
theorem decodeFrom?_le : ∀ (fuel : Nat) (cs : List Char),
    Gives (fun ds => ds.length ≤ cs.length) (decodeFrom? fuel cs)
  | 0, _ => give (Nat.zero_le _)
  | fuel + 1, cs => by
    unfold decodeFrom?
    split
    · exact give (Nat.zero_le _)
    · exact give (Nat.zero_le _)
    · next fuel' c rest hfuel =>
      obtain rfl : fuel = fuel' := Nat.succ.inj hfuel
      have hlong {o : Option (Nat × List Char)} (ho : Gives (fun r => r.2.length ≤ rest.length) o) :
          Gives (fun r => r.2.length ≤ (c :: rest).length) o := fun r hr => Nat.le_succ_of_le (ho r hr)
      dsimp only
      split
      · exact fun ds hds => Nat.le_succ_of_le (Nat.le_succ_of_le (decodeFrom?_le fuel rest ds hds))
      split
      · exact escaped_le (decodeFrom?_le fuel) (give (length_octalRun_le _))
      split
      · exact escaped_le (decodeFrom?_le fuel) (hlong (hexRun?_le 2 rest))
      split
      · exact escaped_le (decodeFrom?_le fuel) (hlong (hexRun?_le 4 rest))
      split
      · exact escaped_le (decodeFrom?_le fuel) (hlong (hexRun?_le 8 rest))
      split
      · exact fail
      split
      · exact escaped_le (decodeFrom?_le fuel) (give (Nat.le_succ _))
      · refine (decodeFrom?_le fuel rest).map fun ds hds => ?_
        simp only [List.length_cons]
        omega
    · next fuel' c rest _ hfuel =>
      obtain rfl : fuel = fuel' := Nat.succ.inj hfuel
      refine (decodeFrom?_le fuel rest).map fun ds hds => ?_
      simp only [List.length_cons]
      omega

theorem decodeText?_le (raw : Bool) (cs : List Char) :
    Gives (fun ds => ds.length ≤ cs.length) (decodeText? raw cs) := by
  unfold decodeText?
  split
  · exact give (Nat.le_refl _)
  · exact decodeFrom?_le _ _

/-- The size of quoted texts. -/
def quotedWidth (qs : List Quoted) : Nat := (qs.map fun q => q.body.length + 1).sum

theorem quotedRun_width (ts : List Token) : quotedWidth (quotedRun ts).1 + width (quotedRun ts).2 = width ts := by
  fun_induction quotedRun ts with
  | case1 q rest qs r hrun ih =>
    rw [hrun] at ih
    simp only [quotedWidth, List.map_cons, List.sum_cons, width_cons, Token.width] at ih ⊢
    omega
  | case2 ts _ => simp [quotedWidth]

theorem flatten_decodeText?_le (qs : List Quoted) :
    Gives (fun parts => parts.flatten.length + qs.length ≤ quotedWidth qs)
      (qs.mapM fun q => decodeText? (q.has 'r') q.body) := by
  induction qs with
  | nil => exact give (by simp [quotedWidth])
  | cons q qs ih =>
    rw [List.mapM_cons]
    refine (decodeText?_le _ q.body).bind fun ds hds => ih.bind fun parts hparts => give ?_
    simp only [quotedWidth, List.map_cons, List.sum_cons, List.flatten_cons, List.length_append, List.length_cons]
      at hparts ⊢
    omega

/-- A text that stands for a constant is no longer than its quoted texts. -/
theorem quotedTree_le (n : Nat) {qs : List Quoted} (hqs : qs ≠ []) :
    Gives (fun t => t.extent ≤ quotedWidth qs) (quotedTree n qs) := by
  have hpos : 1 ≤ quotedWidth qs := by
    cases qs with
    | nil => exact absurd rfl hqs
    | cons q qs => simp only [quotedWidth, List.map_cons, List.sum_cons]; omega
  cases n with
  | zero => exact fail
  | succ n =>
    unfold quotedTree
    split
    · split
      · exact whatever fun _ => give (by simpa [Tree.extent] using hpos)
      · exact fail
    · dsimp only
      split
      · exact whatever fun _ => give (by simpa [Tree.extent] using hpos)
      · refine (flatten_decodeText?_le qs).bind fun parts hparts => give ?_
        have hlength := List.length_pos_iff.mpr hqs
        simp only [Tree.extent, String.length_ofList]
        omega

end Constants

/-! ## What the parser takes away -/

section Front

variable {o w : String} {ts : List Token}

theorem width_drop_le (ts : List Token) : width (ts.drop 1) ≤ width ts := by
  cases ts with
  | nil => exact Nat.le_refl _
  | cons t ts => simp

/-- What drops a token that is there takes it away. -/
theorem width_drop_add_one_le (hts : ts ≠ []) : width (ts.drop 1) + 1 ≤ width ts := by
  cases ts with
  | nil => exact absurd rfl hts
  | cons t ts =>
    have hpos := t.width_pos
    rw [List.drop_one, List.tail_cons, width_cons]
    omega

theorem width_of_startsOp (h : startsOp o ts = true) : width (ts.drop 1) + 1 ≤ width ts :=
  width_drop_add_one_le fun hts => by rw [hts] at h; cases h

theorem width_of_startsWord (h : startsWord w ts = true) : width (ts.drop 1) + 1 ≤ width ts :=
  width_drop_add_one_le fun hts => by rw [hts] at h; cases h

theorem expectOp_takes (o : String) (ts : List Token) : Gives (fun r => width r + 1 ≤ width ts) (expectOp o ts) := by
  unfold expectOp
  split
  · split
    · exact .give (by simp [Token.width, Nat.add_comm])
    · exact .fail
  · exact .fail

theorem expectWord_takes (w : String) (ts : List Token) :
    Gives (fun r => width r + 1 ≤ width ts) (expectWord w ts) := by
  unfold expectWord
  split
  · split
    · exact .give (by simp [Token.width, Nat.add_comm])
    · exact .fail
  · exact .fail

theorem nameToken_takes (ts : List Token) : Gives (fun r => width r.2 + 1 ≤ width ts) (nameToken ts) := by
  unfold nameToken
  split
  · split
    · exact .fail
    · exact .give (by simp [Token.width, Nat.add_comm])
  · exact .fail

theorem compareOp?_takes (ts : List Token) : Gives (fun r => width r.2 + 1 ≤ width ts) (compareOp? ts) := by
  unfold compareOp?
  split <;> first | exact .fail | exact .give (by simp only [width_cons, Token.width]; omega)

end Front

/-- Whether a tree and what is left are within a bound. -/
def Within (b : Nat) (r : Tree × List Token) : Prop := r.1.extent + width r.2 ≤ b

theorem Gives.within {b b' : Nat} {o : Option (Tree × List Token)} (h : Gives (Within b) o) (hle : b ≤ b') :
    Gives (Within b') o := fun r hr => Nat.le_trans (h r hr) hle

/-- What the functions of the parser give at a bound on the number of calls, against the tokens they are given and the
trees they add to. -/
structure Spends (n : Nat) : Prop where
  expression (ts) : Gives (Within (width ts)) (expression n ts)
  namedExpression (ts) : Gives (Within (width ts)) (namedExpression n ts)
  disjunction (ts) : Gives (Within (width ts)) (disjunction n ts)
  conjunction (ts) : Gives (Within (width ts)) (conjunction n ts)
  operands (both ts) : Gives (fun r => extents r.1 + r.1.length + width r.2 ≤ width ts) (operands n both ts)
  inversion (ts) : Gives (Within (width ts)) (inversion n ts)
  comparisons (ts) : Gives (fun r => comparisonExtents r.1 + r.1.length + width r.2 ≤ width ts) (comparisons n ts)
  binary (strength ts) : Gives (Within (width ts)) (binary n strength ts)
  binaryRest (strength left ts) : Gives (Within (left.extent + width ts)) (binaryRest n strength left ts)
  factor (ts) : Gives (Within (width ts)) (factor n ts)
  power (ts) : Gives (Within (width ts)) (power n ts)
  primary (ts) : Gives (Within (width ts)) (primary n ts)
  trailers (t ts) : Gives (Within (t.extent + width ts)) (trailers n t ts)
  arguments (func args names values spread ts) :
    Gives (Within (extents args + width ts)) (arguments n func args names values spread ts)
  subscripts (acc ts) : Gives (Within (extents acc + width ts)) (subscripts n acc ts)
  subscriptItem (ts) : Gives (Within (width ts)) (subscriptItem n ts)
  sliceRest (lower ts) : Gives (Within (boundExtent lower + width ts + 1)) (sliceRest n lower ts)
  sliceBound (ts) : Gives (fun r => boundExtent r.1 + width r.2 ≤ width ts) (sliceBound n ts)
  displayItem (ts) : Gives (Within (width ts)) (displayItem n ts)
  displayItems (closing acc ts) :
    Gives (fun r => extents r.1 + width r.2 + 1 ≤ extents acc + width ts) (displayItems n closing acc ts)
  displayMore (closing acc ts) :
    Gives (fun r => extents r.1 + width r.2 + 1 ≤ extents acc + width ts) (displayMore n closing acc ts)
  atom (ts) : Gives (Within (width ts)) (atom n ts)
  round (ts) : Gives (Within (width ts)) (round n ts)
  yieldExpression (ts) : Gives (Within (width ts + 1)) (yieldExpression n ts)
  starExpressions (acc ts) : Gives (fun r => width r.2 ≤ width ts) (starExpressions n acc ts)
  square (ts) : Gives (Within (width ts)) (square n ts)
  curly (ts) : Gives (Within (width ts)) (curly n ts)
  dictEntries (acc ts) : Gives (Within (entryExtents acc + width ts)) (dictEntries n acc ts)
  clauses (ts) : Gives (fun r => width r.2 ≤ width ts) (clauses n ts)
  conditions (ts) : Gives (fun r => width r.2 ≤ width ts) (conditions n ts)
  targets (acc ts) : Gives (fun r => width r.2 ≤ width ts) (targets n acc ts)
  lambda (ts) : Gives (Within (width ts + 1)) (lambda n ts)
  parameters (s ts) : Gives (fun r => width r.2 ≤ width ts) (parameters n s ts)

namespace Spends

open Gives

theorem zero : Spends 0 := by
  constructor <;> intros <;> exact fail

variable {n : Nat} (ih : Spends n)

include ih

theorem expression_succ (ts : List Token) : Gives (Within (width ts)) (Expr.expression (n + 1) ts) := by
  unfold Expr.expression
  split
  · next hword =>
    have hdrop := width_of_startsWord hword
    exact (ih.lambda _).within hdrop
  · refine (ih.disjunction ts).bind ?_
    rintro ⟨body, ts₁⟩ hbody
    dsimp only
    split
    · next hword =>
      have hdrop := width_of_startsWord hword
      refine (ih.disjunction _).bind ?_
      rintro ⟨test, ts₂⟩ htest
      refine (expectWord_takes _ ts₂).bind fun ts₃ hts₃ => ?_
      refine (ih.expression ts₃).bind ?_
      rintro ⟨orelse, ts₄⟩ horelse
      refine give ?_
      grind [Within, Tree.extent]
    · exact give hbody

theorem namedExpression_succ (ts : List Token) : Gives (Within (width ts)) (Expr.namedExpression (n + 1) ts) := by
  unfold Expr.namedExpression
  split
  · split
    · exact fail
    · refine (ih.expression _).bind ?_
      rintro ⟨e, ts₁⟩ he
      refine give ?_
      grind [Within, Tree.extent, width_cons, Token.width]
  · exact ih.expression _

theorem disjunction_succ (ts : List Token) : Gives (Within (width ts)) (Expr.disjunction (n + 1) ts) := by
  unfold Expr.disjunction
  refine (ih.conjunction ts).bind ?_
  rintro ⟨t, ts₁⟩ ht
  refine (ih.operands _ _).bind ?_
  rintro ⟨more, ts₂⟩ hmore
  refine give ?_
  cases more <;> grind [Within, Tree.extent, extents]

theorem conjunction_succ (ts : List Token) : Gives (Within (width ts)) (Expr.conjunction (n + 1) ts) := by
  unfold Expr.conjunction
  refine (ih.inversion ts).bind ?_
  rintro ⟨t, ts₁⟩ ht
  refine (ih.operands _ _).bind ?_
  rintro ⟨more, ts₂⟩ hmore
  refine give ?_
  cases more <;> grind [Within, Tree.extent, extents]

theorem operands_succ (both : Bool) (ts : List Token) :
    Gives (fun r => extents r.1 + r.1.length + width r.2 ≤ width ts) (Expr.operands (n + 1) both ts) := by
  have hmore {word : String} (hword : startsWord word ts = true) (r : Tree × List Token)
      (h : Within (width (ts.drop 1)) r) : Gives (fun r => extents r.1 + r.1.length + width r.2 ≤ width ts)
      (Expr.operands n both r.2 >>= fun more => some (r.1 :: more.1, more.2)) := by
    have hdrop := width_of_startsWord hword
    refine (ih.operands _ _).bind fun more hmore => give ?_
    grind [Within, extents]
  unfold Expr.operands
  cases both with
  | true =>
    simp only [↓reduceIte]
    split
    · next hword => exact (ih.inversion _).bind (hmore hword)
    · exact give (by simp [extents])
  | false =>
    simp only [Bool.false_eq_true, ↓reduceIte]
    split
    · next hword => exact (ih.conjunction _).bind (hmore hword)
    · exact give (by simp [extents])

theorem inversion_succ (ts : List Token) : Gives (Within (width ts)) (Expr.inversion (n + 1) ts) := by
  unfold Expr.inversion
  split
  · next hword =>
    have hdrop := width_of_startsWord hword
    refine (ih.inversion _).bind ?_
    rintro ⟨t, ts₁⟩ ht
    refine give ?_
    grind [Within, Tree.extent]
  · refine (ih.binary _ _).bind ?_
    rintro ⟨left, ts₁⟩ hleft
    refine (ih.comparisons _).bind ?_
    rintro ⟨rest, ts₂⟩ hrest
    refine give ?_
    cases rest <;> grind [Within, Tree.extent, comparisonExtents]

theorem comparisons_succ (ts : List Token) :
    Gives (fun r => comparisonExtents r.1 + r.1.length + width r.2 ≤ width ts) (Expr.comparisons (n + 1) ts) := by
  unfold Expr.comparisons
  split
  · exact give (by simp [comparisonExtents])
  · next op rest hop =>
    have hrest := compareOp?_takes ts _ hop
    refine (ih.binary _ _).bind ?_
    rintro ⟨t, ts₁⟩ ht
    refine (ih.comparisons _).bind ?_
    rintro ⟨more, ts₂⟩ hmore
    refine give ?_
    grind [Within, comparisonExtents, comparisonExtent]

theorem binary_succ (strength : Nat) (ts : List Token) :
    Gives (Within (width ts)) (Expr.binary (n + 1) strength ts) := by
  unfold Expr.binary
  refine (ih.factor ts).bind ?_
  rintro ⟨left, ts₁⟩ hleft
  exact (ih.binaryRest _ _ _).within hleft

theorem binaryRest_succ (strength : Nat) (left : Tree) (ts : List Token) :
    Gives (Within (left.extent + width ts)) (Expr.binaryRest (n + 1) strength left ts) := by
  unfold Expr.binaryRest
  split
  · split
    · split
      · refine (ih.binary _ _).bind ?_
        rintro ⟨right, ts₁⟩ hright
        refine (ih.binaryRest _ _ _).within ?_
        grind [Within, Tree.extent, width_cons, Token.width]
      · exact give (Nat.le_refl _)
    · exact give (Nat.le_refl _)
  · exact give (Nat.le_refl _)

theorem factor_succ (ts : List Token) : Gives (Within (width ts)) (Expr.factor (n + 1) ts) := by
  unfold Expr.factor
  split
  · split
    · refine (ih.factor _).bind ?_
      rintro ⟨t, ts₁⟩ ht
      refine give ?_
      grind [Within, Tree.extent, width_cons, Token.width]
    · exact ih.power _
  · exact ih.power _

/-- What comes after a base: perhaps a power. -/
theorem raised {b : Nat} {base : Tree} {ts : List Token} (hbase : Within b (base, ts)) :
    Gives (Within b) (if startsOp "**" ts then do
      let (e, ts) ← Expr.factor n (ts.drop 1)
      return (Tree.binary .pow base e, ts)
    else return (base, ts)) := by
  split
  · next hop =>
    have hdrop := width_of_startsOp hop
    refine (ih.factor _).bind ?_
    rintro ⟨e, ts₁⟩ he
    refine give ?_
    grind [Within, Tree.extent]
  · exact give hbase

theorem power_succ (ts : List Token) : Gives (Within (width ts)) (Expr.power (n + 1) ts) := by
  unfold Expr.power
  dsimp only
  split
  · next hword =>
    have hdrop := width_of_startsWord hword
    refine (ih.primary _).bind ?_
    rintro ⟨t, ts₁⟩ ht
    refine ih.raised ?_
    grind [Within, Tree.extent]
  · refine (ih.primary ts).bind ?_
    rintro ⟨t, ts₁⟩ ht
    exact ih.raised ht

theorem primary_succ (ts : List Token) : Gives (Within (width ts)) (Expr.primary (n + 1) ts) := by
  unfold Expr.primary
  refine (ih.atom ts).bind ?_
  rintro ⟨t, ts₁⟩ ht
  exact (ih.trailers _ _).within ht

theorem trailers_succ (t : Tree) (ts : List Token) :
    Gives (Within (t.extent + width ts)) (Expr.trailers (n + 1) t ts) := by
  unfold Expr.trailers
  split
  · refine (nameToken_takes _).bind ?_
    rintro ⟨attr, ts₁⟩ hname
    refine (ih.trailers _ _).within ?_
    grind [Within, Tree.extent, width_cons, Token.width]
  · refine (ih.arguments _ _ _ _ _ _).bind ?_
    rintro ⟨call, ts₁⟩ hcall
    refine (ih.trailers _ _).within ?_
    grind [Within, extents, width_cons, Token.width]
  · refine (ih.subscripts _ _).bind ?_
    rintro ⟨index, ts₁⟩ hindex
    refine (ih.trailers _ _).within ?_
    grind [Within, Tree.extent, extents, width_cons, Token.width]
  · exact give (Nat.le_refl _)

/-- What comes after an argument: the closing bracket, or a comma and more of them. -/
theorem afterArgument (func : Tree) (args : List Tree) (names : List (Option String)) (values : List Tree)
    (spread : Bool) (ts : List Token) : Gives (Within (extents args + width ts)) (match ts with
      | .op ")" :: rest => some (.call func args.reverse names.reverse values.reverse, rest)
      | .op "," :: rest => Expr.arguments n func args names values spread rest
      | _ => none) := by
  split
  · exact give (by grind [Within, Tree.extent, extents_reverse, width_cons, Token.width])
  · exact (ih.arguments _ _ _ _ _ _).within (by grind [width_cons])
  · exact fail

theorem arguments_succ (func : Tree) (args : List Tree) (names : List (Option String)) (values : List Tree)
    (spread : Bool) (ts : List Token) :
    Gives (Within (extents args + width ts)) (Expr.arguments (n + 1) func args names values spread ts) := by
  unfold Expr.arguments
  dsimp only
  split
  · exact give (by grind [Within, Tree.extent, extents_reverse, width_cons, Token.width])
  · refine (ih.expression _).bind ?_
    rintro ⟨e, ts₁⟩ he
    refine (ih.afterArgument _ _ _ _ _ _).within ?_
    grind [Within, width_cons]
  · split
    · exact fail
    · refine (ih.expression _).bind ?_
      rintro ⟨e, ts₁⟩ he
      refine (ih.afterArgument _ _ _ _ _ _).within ?_
      grind [Within, extents, Tree.extent, width_cons, Token.width]
  · split
    · exact fail
    · refine (ih.expression _).bind ?_
      rintro ⟨e, ts₁⟩ he
      refine (ih.afterArgument _ _ _ _ _ _).within ?_
      grind [Within, width_cons]
  · split
    · exact fail
    · refine (ih.namedExpression _).bind ?_
      rintro ⟨e, ts₁⟩ he
      dsimp only
      split
      · split
        · exact fail
        · refine (ih.clauses _).bind ?_
          rintro ⟨cs, ts₂⟩ hcs
          refine (expectOp_takes _ _).bind fun ts₃ hts₃ => give ?_
          have hpos := e.extent_pos
          grind [Within, Tree.extent, extents]
      · refine (ih.afterArgument _ _ _ _ _ _).within ?_
        grind [Within, extents]

/-- What comes after a subscript: a comma and more of them, or the closing bracket. -/
theorem afterSubscript (t : Tree) (starred : Bool) (acc : List Tree) (ts : List Token) :
    Gives (Within (t.extent + extents acc + width ts)) (match ts with
      | .op "," :: rest => Expr.subscripts n (t :: acc) rest
      | .op "]" :: rest => if acc.isEmpty && !starred then some (t, rest) else some (.tuple (t :: acc).reverse, rest)
      | _ => none) := by
  split
  · exact (ih.subscripts _ _).within (by grind [extents, width_cons])
  · split
    · exact give (by grind [Within, width_cons])
    · exact give (by grind [Within, Tree.extent, extents, extents_reverse, width_cons, Token.width])
  · exact fail

theorem subscripts_succ (acc : List Tree) (ts : List Token) :
    Gives (Within (extents acc + width ts)) (Expr.subscripts (n + 1) acc ts) := by
  unfold Expr.subscripts
  split
  · split
    · exact fail
    · exact give (by grind [Within, Tree.extent, extents_reverse, width_cons, Token.width])
  · dsimp only
    split
    · refine (ih.expression _).bind ?_
      rintro ⟨e, ts₁⟩ he
      refine (ih.afterSubscript _ _ _ _).within ?_
      grind [Within, Tree.extent, width_cons, Token.width]
    · refine (ih.subscriptItem _).bind ?_
      rintro ⟨e, ts₁⟩ he
      refine (ih.afterSubscript _ _ _ _).within ?_
      grind [Within]

theorem subscriptItem_succ (ts : List Token) : Gives (Within (width ts)) (Expr.subscriptItem (n + 1) ts) := by
  unfold Expr.subscriptItem
  split
  · next hop =>
    have hdrop := width_of_startsOp hop
    exact (ih.sliceRest _ _).within (by grind [boundExtent])
  · refine (ih.namedExpression ts).bind ?_
    rintro ⟨e, ts₁⟩ he
    dsimp only
    split
    · next hop =>
      have hdrop := width_of_startsOp hop
      split
      · exact fail
      · exact (ih.sliceRest _ _).within (by grind [Within, boundExtent])
    · exact give he

theorem sliceRest_succ (lower : Option Tree) (ts : List Token) :
    Gives (Within (boundExtent lower + width ts + 1)) (Expr.sliceRest (n + 1) lower ts) := by
  unfold Expr.sliceRest
  refine (ih.sliceBound ts).bind ?_
  rintro ⟨upper, ts₁⟩ hupper
  dsimp only
  split
  · next hop =>
    have hdrop := width_of_startsOp hop
    refine (ih.sliceBound _).bind ?_
    rintro ⟨step, ts₂⟩ hstep
    refine give ?_
    grind [Within, Tree.extent]
  · exact give (by grind [Within, Tree.extent, boundExtent])

theorem sliceBound_succ (ts : List Token) :
    Gives (fun r => boundExtent r.1 + width r.2 ≤ width ts) (Expr.sliceBound (n + 1) ts) := by
  unfold Expr.sliceBound
  split
  · exact give (by simp [boundExtent])
  · refine (ih.expression ts).bind ?_
    rintro ⟨e, ts₁⟩ he
    exact give (by grind [Within, boundExtent])

theorem displayItem_succ (ts : List Token) : Gives (Within (width ts)) (Expr.displayItem (n + 1) ts) := by
  unfold Expr.displayItem
  split
  · refine (ih.binary _ _).bind ?_
    rintro ⟨e, ts₁⟩ he
    refine give ?_
    grind [Within, Tree.extent, width_cons, Token.width]
  · exact ih.namedExpression _

theorem displayItems_succ (closing : String) (acc : List Tree) (ts : List Token) :
    Gives (fun r => extents r.1 + width r.2 + 1 ≤ extents acc + width ts)
      (Expr.displayItems (n + 1) closing acc ts) := by
  unfold Expr.displayItems
  split
  · split
    · exact give (by grind [width_cons, Token.width])
    · exact ih.displayMore _ _ _
  · exact ih.displayMore _ _ _

theorem displayMore_succ (closing : String) (acc : List Tree) (ts : List Token) :
    Gives (fun r => extents r.1 + width r.2 + 1 ≤ extents acc + width ts)
      (Expr.displayMore (n + 1) closing acc ts) := by
  unfold Expr.displayMore
  refine (ih.displayItem ts).bind ?_
  rintro ⟨t, ts₁⟩ ht
  dsimp only
  split
  · refine fun r hr => ?_
    have hr := ih.displayItems _ _ _ r hr
    grind [Within, extents, width_cons]
  · split
    · exact give (by grind [Within, extents, width_cons, Token.width])
    · exact fail
  · exact fail

theorem atom_succ (ts : List Token) : Gives (Within (width ts)) (Expr.atom (n + 1) ts) := by
  unfold Expr.atom
  split
  · exact give (by simp [Within, Tree.extent, Token.width])
  · exact give (by simp [Within, Tree.extent, Token.width])
  · exact give (by simp [Within, Tree.extent, Token.width])
  · split
    · exact fail
    · exact give (by simp [Within, Tree.extent, Token.width])
  · exact give (by simp [Within, Token.width])
  · next q rest =>
    have hrun := quotedRun_width (.quoted q :: rest)
    refine (quotedTree_le n (List.cons_ne_nil q _)).map fun t ht => ?_
    simp only [quotedRun] at hrun
    grind [Within]
  · exact give (by simp [Within, Tree.extent, Token.width])
  · exact (ih.round _).within (by simp)
  · exact (ih.square _).within (by simp)
  · exact (ih.curly _).within (by simp)
  · exact fail

theorem round_succ (ts : List Token) : Gives (Within (width ts)) (Expr.round (n + 1) ts) := by
  unfold Expr.round
  split
  · next hop =>
    have hdrop := width_of_startsOp hop
    exact give (by grind [Within, Tree.extent, extents])
  · split
    · next hword =>
      have hdrop := width_of_startsWord hword
      refine (ih.yieldExpression _).bind ?_
      rintro ⟨t, ts₁⟩ ht
      refine (expectOp_takes _ _).bind fun ts₂ hts₂ => give ?_
      grind [Within]
    · refine (ih.displayItem ts).bind ?_
      rintro ⟨t, ts₁⟩ ht
      dsimp only
      split
      · refine (ih.displayItems _ _ _).bind ?_
        rintro ⟨items, ts₂⟩ hitems
        refine give ?_
        grind [Within, Tree.extent, extents, extents_reverse, width_cons]
      · split <;> split
        all_goals first | exact fail | exact give (by grind [Within, width_cons])
      · split <;> split
        all_goals first | exact fail | skip
        all_goals
          refine (ih.clauses _).bind ?_
          rintro ⟨cs, ts₂⟩ hcs
          refine (expectOp_takes _ _).bind fun ts₃ hts₃ => give ?_
          grind [Within, Tree.extent]

theorem yieldExpression_succ (ts : List Token) :
    Gives (Within (width ts + 1)) (Expr.yieldExpression (n + 1) ts) := by
  unfold Expr.yieldExpression
  split
  · next hword =>
    have hdrop := width_of_startsWord hword
    refine (ih.expression _).bind ?_
    rintro ⟨t, ts₁⟩ ht
    refine give ?_
    grind [Within, Tree.extent]
  · split
    · exact give (by grind [Within, Tree.extent])
    · refine (ih.starExpressions _ _).bind ?_
      rintro ⟨t, ts₁⟩ ht
      refine give ?_
      grind [Within, Tree.extent]

theorem starExpressions_succ (acc : List Tree) (ts : List Token) :
    Gives (fun r => width r.2 ≤ width ts) (Expr.starExpressions (n + 1) acc ts) := by
  have hmore (t : Tree) {ts₁ : List Token} (hts₁ : width ts₁ ≤ width ts) : Gives (fun r => width r.2 ≤ width ts)
      (if startsOp "," ts₁ then Expr.starExpressions n (t :: acc) (ts₁.drop 1)
      else if acc.isEmpty then some (t, ts₁)
      else some (.tuple (t :: acc).reverse, ts₁)) := by
    split
    · exact fun r hr => Nat.le_trans (ih.starExpressions _ _ r hr) (Nat.le_trans (width_drop_le _) hts₁)
    · split <;> exact give hts₁
  unfold Expr.starExpressions
  split
  · exact give (Nat.le_refl _)
  · dsimp only
    split
    · refine (ih.binary _ _).bind ?_
      rintro ⟨e, ts₁⟩ he
      refine hmore _ ?_
      grind [Within, width_cons]
    · refine (ih.expression _).bind ?_
      rintro ⟨e, ts₁⟩ he
      refine hmore _ ?_
      grind [Within]

theorem square_succ (ts : List Token) : Gives (Within (width ts)) (Expr.square (n + 1) ts) := by
  unfold Expr.square
  split
  · next hop =>
    have hdrop := width_of_startsOp hop
    exact give (by grind [Within, Tree.extent, extents])
  · refine (ih.displayItem ts).bind ?_
    rintro ⟨t, ts₁⟩ ht
    dsimp only
    split
    · refine (ih.displayItems _ _ _).bind ?_
      rintro ⟨items, ts₂⟩ hitems
      refine give ?_
      grind [Within, Tree.extent, extents, extents_reverse, width_cons]
    · exact give (by grind [Within, Tree.extent, extents, width_cons, Token.width])
    · split
      · exact fail
      · split
        · refine (ih.clauses _).bind ?_
          rintro ⟨cs, ts₂⟩ hcs
          refine (expectOp_takes _ _).bind fun ts₃ hts₃ => give ?_
          grind [Within, Tree.extent]
        · exact fail

theorem curly_succ (ts : List Token) : Gives (Within (width ts)) (Expr.curly (n + 1) ts) := by
  have hempty : entryExtents [] + width ts ≤ width ts := by simp [entryExtents]
  unfold Expr.curly
  split
  · next hop =>
    have hdrop := width_of_startsOp hop
    exact give (by grind [Within, Tree.extent, entryExtents])
  · split
    · exact (ih.dictEntries _ _).within hempty
    · refine (ih.displayItem ts).bind ?_
      rintro ⟨t, after⟩ ht
      dsimp only
      split
      · exact fail
      · refine (ih.expression _).bind ?_
        rintro ⟨v, after₁⟩ hv
        dsimp only
        split
        · exact fail
        · split
          · refine (ih.clauses _).bind ?_
            rintro ⟨cs, ts₂⟩ hcs
            refine (expectOp_takes _ _).bind fun ts₃ hts₃ => give ?_
            grind [Within, Tree.extent, width_cons]
          · exact (ih.dictEntries _ _).within hempty
      · refine (ih.displayItems _ _ _).bind ?_
        rintro ⟨items, ts₂⟩ hitems
        refine give ?_
        grind [Within, Tree.extent, extents, width_cons]
      · exact give (by grind [Within, Tree.extent, width_cons, Token.width])
      · exact fail
      · split
        · refine (ih.clauses _).bind ?_
          rintro ⟨cs, ts₂⟩ hcs
          refine (expectOp_takes _ _).bind fun ts₃ hts₃ => give ?_
          grind [Within, Tree.extent]
        · exact fail

/-- What comes after an entry: a comma and more of them, or the closing brace. -/
theorem afterEntry (entry : Option Tree × Tree) (acc : List (Option Tree × Tree)) (ts : List Token) :
    Gives (Within (entryExtent entry + entryExtents acc + width ts)) (match ts with
      | .op "," :: rest => Expr.dictEntries n (entry :: acc) rest
      | .op "\x7d" :: rest => some (.dict (entry :: acc).reverse, rest)
      | _ => none) := by
  split
  · exact (ih.dictEntries _ _).within (by grind [entryExtents, width_cons])
  · exact give (by grind [Within, Tree.extent, entryExtents, entryExtents_reverse, width_cons, Token.width])
  · exact fail

theorem dictEntries_succ (acc : List (Option Tree × Tree)) (ts : List Token) :
    Gives (Within (entryExtents acc + width ts)) (Expr.dictEntries (n + 1) acc ts) := by
  unfold Expr.dictEntries
  split
  · next hop =>
    have hdrop := width_of_startsOp hop
    exact give (by grind [Within, Tree.extent, entryExtents_reverse])
  · dsimp only
    split
    · next hop =>
      have hdrop := width_of_startsOp hop
      refine (ih.binary _ _).bind ?_
      rintro ⟨v, ts₁⟩ hv
      refine (ih.afterEntry _ _ _).within ?_
      grind [Within, entryExtent, boundExtent]
    · refine (ih.expression _).bind ?_
      rintro ⟨k, ts₁⟩ hk
      refine (expectOp_takes _ _).bind fun ts₂ hts₂ => ?_
      refine (ih.expression _).bind ?_
      rintro ⟨v, ts₃⟩ hv
      refine (ih.afterEntry _ _ _).within ?_
      grind [Within, entryExtent, boundExtent]

theorem clauses_succ (ts : List Token) : Gives (fun r => width r.2 ≤ width ts) (Expr.clauses (n + 1) ts) := by
  unfold Expr.clauses
  split
  · refine (expectWord_takes _ _).bind fun ts₁ hts₁ => (ih.targets _ _).bind ?_
    rintro ⟨target, ts₂⟩ htarget
    refine (expectWord_takes _ _).bind fun ts₃ hts₃ => (ih.disjunction _).bind ?_
    rintro ⟨source, ts₄⟩ hsource
    refine (ih.conditions _).bind ?_
    rintro ⟨conditions, ts₅⟩ hconditions
    refine (ih.clauses _).bind ?_
    rintro ⟨more, ts₆⟩ hmore
    refine give ?_
    have hdrop := width_drop_le ts
    have hfirst : width (if startsWord "async" ts = true then ts.drop 1 else ts) ≤ width ts := by
      split
      · exact hdrop
      · exact Nat.le_refl _
    grind [Within]
  · exact give (Nat.le_refl _)

theorem conditions_succ (ts : List Token) :
    Gives (fun r => width r.2 ≤ width ts) (Expr.conditions (n + 1) ts) := by
  unfold Expr.conditions
  split
  · have hdrop := width_drop_le ts
    refine (ih.disjunction _).bind ?_
    rintro ⟨t, ts₁⟩ ht
    refine (ih.conditions _).bind ?_
    rintro ⟨more, ts₂⟩ hmore
    refine give ?_
    grind [Within]
  · exact give (Nat.le_refl _)

theorem targets_succ (acc : List Tree) (ts : List Token) :
    Gives (fun r => width r.2 ≤ width ts) (Expr.targets (n + 1) acc ts) := by
  have hmore (t : Tree) {ts₁ : List Token} (hts₁ : width ts₁ ≤ width ts) : Gives (fun r => width r.2 ≤ width ts)
      (if !isTarget t then none
      else if startsOp "," ts₁ then Expr.targets n (t :: acc) (ts₁.drop 1)
      else if acc.isEmpty then some (t, ts₁)
      else some (.tuple (t :: acc).reverse, ts₁)) := by
    split
    · exact fail
    split
    · exact fun r hr => Nat.le_trans (ih.targets _ _ r hr) (Nat.le_trans (width_drop_le _) hts₁)
    · split <;> exact give hts₁
  unfold Expr.targets
  split
  · exact give (Nat.le_refl _)
  · dsimp only
    split
    · refine (ih.primary _).bind ?_
      rintro ⟨e, ts₁⟩ he
      refine hmore _ ?_
      grind [Within, width_cons]
    · refine (ih.primary _).bind ?_
      rintro ⟨e, ts₁⟩ he
      refine hmore _ ?_
      grind [Within]

theorem lambda_succ (ts : List Token) : Gives (Within (width ts + 1)) (Expr.lambda (n + 1) ts) := by
  unfold Expr.lambda
  refine (ih.parameters _ _).bind ?_
  rintro ⟨s, ts₁⟩ hs
  refine (ih.expression _).bind ?_
  rintro ⟨body, ts₂⟩ hbody
  refine give ?_
  grind [Within, Tree.extent]

/-- What comes after a parameter: a comma and more of them, or the colon. -/
theorem afterParameter {b : Nat} (s : ParamScan) {k : List Token → Option (ParamScan × List Token)}
    (hk : ∀ rest, Gives (fun r => width r.2 ≤ width rest) (k rest)) (ts : List Token) :
    width ts ≤ b → Gives (fun r => width r.2 ≤ b) (match ts with
      | .op "," :: rest => Expr.parameters n s rest
      | .op ":" :: rest => k rest
      | _ => none) := by
  intro hts
  split
  · exact fun r hr => Nat.le_trans (ih.parameters _ _ r hr) (by grind [width_cons])
  · exact fun r hr => Nat.le_trans (hk _ r hr) (by grind [width_cons])
  · exact fail

theorem parameters_succ (s : ParamScan) (ts : List Token) :
    Gives (fun r => width r.2 ≤ width ts) (Expr.parameters (n + 1) s ts) := by
  have hdone (s : ParamScan) (rest : List Token) : Gives (fun r => width r.2 ≤ width rest) (some (s, rest)) :=
    give (Nat.le_refl _)
  have hcolon (s : ParamScan) (bare : Bool) (rest : List Token) :
      Gives (fun r => width r.2 ≤ width rest) (if bare then none else some (s, rest)) := by
    cases bare with
    | true => exact fail
    | false => exact hdone s rest
  unfold Expr.parameters
  dsimp only
  split
  · exact (expectOp_takes _ _).map fun r hr => Nat.le_of_succ_le hr
  split
  · split
    · exact fail
    · exact give (by simp)
  · split
    · exact fail
    · refine ih.afterParameter _ (hcolon _ _) _ ?_
      simp
  · split
    · exact fail
    · refine (nameToken_takes _).bind ?_
      rintro ⟨v, ts₁⟩ hv
      refine ih.afterParameter _ (hdone _) _ ?_
      grind [width_cons]
  · split
    · exact fail
    · split
      · exact fun r hr => Nat.le_trans (ih.parameters _ _ r hr) (by grind [width_cons])
      · refine (nameToken_takes _).bind ?_
        rintro ⟨v, ts₁⟩ hv
        refine ih.afterParameter _ (hcolon _ _) _ ?_
        grind [width_cons]
  · refine (nameToken_takes _).bind ?_
    rintro ⟨v, ts₁⟩ hv
    have hts₁ : width ts₁ ≤ width ts := Nat.le_of_succ_le hv
    dsimp only
    -- the default, if there is one, leaves less
    have hdefault (x : Option Tree × List Token) (hx : width x.2 ≤ width ts) :
        Gives (fun x : Option Tree × List Token => width x.2 ≤ width ts) (some x) := give hx
    split
    · have hdrop := width_drop_le ts₁
      refine (ih.expression _).bind ?_
      rintro ⟨e, ts₂⟩ he
      refine (hdefault (some e, ts₂) ?_).bind fun x hx => ?_
      · grind [Within]
      · split
        · exact ih.afterParameter _ (hcolon _ _) _ hx
        · split
          · exact fail
          · exact ih.afterParameter _ (hcolon _ _) _ hx
    · refine (hdefault (none, ts₁) hts₁).bind fun x hx => ?_
      split
      · exact ih.afterParameter _ (hcolon _ _) _ hx
      · split
        · exact fail
        · exact ih.afterParameter _ (hcolon _ _) _ hx

theorem succ : Spends (n + 1) where
  expression := ih.expression_succ
  namedExpression := ih.namedExpression_succ
  disjunction := ih.disjunction_succ
  conjunction := ih.conjunction_succ
  operands := ih.operands_succ
  inversion := ih.inversion_succ
  comparisons := ih.comparisons_succ
  binary := ih.binary_succ
  binaryRest := ih.binaryRest_succ
  factor := ih.factor_succ
  power := ih.power_succ
  primary := ih.primary_succ
  trailers := ih.trailers_succ
  arguments := ih.arguments_succ
  subscripts := ih.subscripts_succ
  subscriptItem := ih.subscriptItem_succ
  sliceRest := ih.sliceRest_succ
  sliceBound := ih.sliceBound_succ
  displayItem := ih.displayItem_succ
  displayItems := ih.displayItems_succ
  displayMore := ih.displayMore_succ
  atom := ih.atom_succ
  round := ih.round_succ
  yieldExpression := ih.yieldExpression_succ
  starExpressions := ih.starExpressions_succ
  square := ih.square_succ
  curly := ih.curly_succ
  dictEntries := ih.dictEntries_succ
  clauses := ih.clauses_succ
  conditions := ih.conditions_succ
  targets := ih.targets_succ
  lambda := ih.lambda_succ
  parameters := ih.parameters_succ

omit ih in
theorem all : ∀ n, Spends n
  | 0 => zero
  | n + 1 => (all n).succ

end Spends

/-! ## Whole texts -/

/-- Expressions between commas, after the ones that were read already: the comma after the first pays for the tuple. -/
theorem wholeText_le : ∀ (n : Nat) (acc : List Tree) (ts : List Token),
    Gives (fun t => t.extent ≤ extents acc + min 1 acc.length + width ts) (wholeText n acc ts)
  | 0, _, _ => .fail
  | n + 1, acc, ts => by
    unfold wholeText
    dsimp only
    split
    · next hend =>
      have hacc : acc ≠ [] := by
        rintro rfl
        cases hend
      have hpos := List.length_pos_iff.mpr hacc
      refine .give ?_
      simp only [Tree.extent, extents_reverse]
      omega
    · refine ((Spends.all _).expression ts).bind ?_
      rintro ⟨t, ts₁⟩ ht
      dsimp only
      split
      · next hop =>
        have hdrop := width_of_startsOp hop
        refine fun u hu => Nat.le_trans (wholeText_le n _ _ u hu) ?_
        grind [Within, extents]
      · split
        · refine .give ?_
          cases acc <;> grind [Within, Tree.extent, extents, extents_reverse]
        · exact .fail

/-- The tree of a text is no larger than the text. -/
theorem extent_le_of_parse? {source : String} {t : Tree} (h : parse? source = some t) : t.extent ≤ source.length := by
  unfold parse? at h
  dsimp only at h
  split at h
  · cases h
  · obtain ⟨ts, hts, h⟩ := Option.bind_eq_some_iff.mp h
    have hwidth := width_of_tokens? hts
    have hextent := wholeText_le _ _ _ t h
    simp only [extents, List.length_nil] at hextent
    rw [String.length_toList] at hwidth
    omega

end Patchbay.Expr
