import Reshape.Number.Text
import Reshape.Proofs.Number.Exact

/-!
# How integers are written

An integer of a magnitude up to 2⁵³ is a number exactly, and the text of that number is its decimal
digits under its sign. From 10¹⁵ on, an integer is written as the shortest decimal that reads back.
With no more digits than the integer has, such a decimal has no places behind the point, and then
only the integer itself reads back.

* `Number.IsExact`, the numbers that are such integers, `IsExact.exists_eq_ofInt` and
  `isExact_ofInt`;
* `toDigits_mul_pow` and `Figures.positional_ofDecimal`, decimals without places behind the point;
* `digits_of_readsAs` and `shortest_eq_integer`, the shortest decimal of an integer;
* `plainText_ofInt`.
-/

namespace Reshape

/-! ### Digits -/

/-- Zeros behind the digits of a number. -/
theorem toDigits_mul_pow {n : Nat} (h : 0 < n) (e : Nat) :
    Nat.toDigits 10 (n * 10 ^ e) = Nat.toDigits 10 n ++ List.replicate e '0' := by
  induction e with
  | zero => simp
  | succ e ih =>
    have hpos : 0 < n * 10 ^ e := Nat.mul_pos h (Nat.pow_pos (by decide))
    have hzero : Nat.toDigits 10 0 = ['0'] := rfl
    calc Nat.toDigits 10 (n * 10 ^ (e + 1))
        = Nat.toDigits 10 (10 * (n * 10 ^ e) + 0) := by
          rw [Nat.pow_succ, ← Nat.mul_assoc, Nat.mul_comm 10, Nat.add_zero]
      _ = Nat.toDigits 10 (n * 10 ^ e) ++ Nat.toDigits 10 0 :=
          (Nat.toDigits_append_toDigits (by decide) hpos (by decide)).symm
      _ = Nat.toDigits 10 n ++ List.replicate (e + 1) '0' := by
          rw [ih, hzero, List.append_assoc, ← List.replicate_succ']

/-- The zeros that a list of digits ends with, and the digits in front of them. -/
theorem exists_zeros (digits : List Char) :
    ∃ zeros, digits =
      (digits.reverse.dropWhile (· == '0')).reverse ++ List.replicate zeros '0' := by
  have hzeros : digits.reverse.takeWhile (· == '0') =
      List.replicate (digits.reverse.takeWhile (· == '0')).length '0' := by
    refine List.eq_replicate_of_mem fun c hc => ?_
    exact eq_of_beq (List.all_eq_true.1 List.all_takeWhile c hc)
  refine ⟨(digits.reverse.takeWhile (· == '0')).length, ?_⟩
  rw [← List.reverse_replicate, ← hzeros, ← List.reverse_append, List.takeWhile_append_dropWhile,
    List.reverse_reverse]

namespace Number

/-- A decimal without places behind the point is written as an integer. -/
theorem Figures.positional_ofDecimal {d : Decimal} (h : 0 < d.digits) (he : 0 ≤ d.exponent) :
    (Figures.ofDecimal d).positional [] = Nat.toDigits 10 (d.digits * 10 ^ d.exponent.toNat) := by
  obtain ⟨zeros, hzeros⟩ := exists_zeros (Nat.toDigits 10 d.digits)
  have hall : 0 < (Nat.toDigits 10 d.digits).length := Nat.length_toDigits_pos
  have hlength := congrArg List.length hzeros
  rw [List.length_append, List.length_replicate] at hlength
  unfold Figures.positional Figures.ofDecimal
  simp only
  rw [if_neg (by omega), if_pos (by omega), toDigits_mul_pow h, List.append_nil]
  conv => rhs; rw [hzeros]
  rw [List.append_assoc, List.replicate_append_replicate]
  congr 2
  omega

/-! ### Exact integers -/

/-- The number is an integer of a magnitude up to 2⁵³, and it is not the negative zero. -/
structure IsExact (n : Number) : Prop where
  integer : ∃ k : Int, n.toInt? = some k ∧ k.natAbs ≤ 2 ^ 53
  positive : ∀ h, n ≠ finite true 0 h

theorem ofInt_eq_finite {k : Int} (h : k.natAbs ≤ 2 ^ 53) :
    ofInt k =
      finite (decide (k < 0)) (k.natAbs * unitsPerOne) (representable_mul_unitsPerOne h) := by
  rw [ofInt, ofRatio_of_representable]

theorem toInt?_ofInt {k : Int} (h : k.natAbs ≤ 2 ^ 53) : (ofInt k).toInt? = some k := by
  have hintegral : (ofInt k).isIntegral = true := by
    rw [ofInt_eq_finite h, isIntegral, Nat.mul_mod_left]
    rfl
  have hsigned : signed (decide (k < 0)) k.natAbs = k := by
    unfold signed
    split <;> rename_i hneg <;> simp only [decide_eq_true_eq] at hneg <;> omega
  rw [toInt?, if_pos hintegral, ofInt_eq_finite h, truncate?, div_unitsPerOne, hsigned]

/-- An exact integer is the number of an integer. -/
theorem IsExact.exists_eq_ofInt {n : Number} (h : n.IsExact) :
    ∃ k : Int, k.natAbs ≤ 2 ^ 53 ∧ n = ofInt k := by
  obtain ⟨⟨k, hk, hbound⟩, hpositive⟩ := h
  refine ⟨k, hbound, ?_⟩
  cases n with
  | nan => cases hk
  | infinite negative => cases hk
  | finite negative units hu =>
    unfold toInt? at hk
    split at hk
    · rename_i hintegral
      rw [isIntegral, beq_iff_eq] at hintegral
      have hunits := Nat.div_mul_cancel (Nat.dvd_of_mod_eq_zero hintegral)
      generalize units / unitsPerOne = factor at hunits
      subst hunits
      rw [truncate?, div_unitsPerOne, Option.some.injEq] at hk
      have habs : k.natAbs = factor := by
        rw [← hk, signed]
        split <;> omega
      have hnegative : decide (k < 0) = negative := by
        rw [← hk, signed]
        cases negative with
        | false => exact decide_eq_false (by simp)
        | true =>
          have hne : factor ≠ 0 := by
            rintro rfl
            simp only [Nat.zero_mul] at hpositive hu
            exact hpositive hu rfl
          exact decide_eq_true (by simp only [if_true]; omega)
      simp only [ofInt_eq_finite hbound, habs, hnegative]
    · cases hk

/-- The number of an integer up to 2⁵³ is an exact integer. -/
theorem isExact_ofInt {k : Int} (h : k.natAbs ≤ 2 ^ 53) : (ofInt k).IsExact where
  integer := ⟨k, toInt?_ofInt h, h⟩
  positive hu hzero := by
    rw [ofInt_eq_finite h, finite.injEq] at hzero
    obtain ⟨hnegative, hunits⟩ := hzero
    have hk : 0 < k.natAbs := Int.natAbs_pos.2 (Int.ne_of_lt (of_decide_eq_true hnegative))
    exact Nat.ne_of_gt (Nat.mul_pos hk unitsPerOne_pos) hunits

/-! ### The shortest decimal of an integer -/

/-- A decimal without places behind the point is read as an integer. -/
theorem ofDecimal_of_integer {d : Decimal} (he : 0 ≤ d.exponent)
    (hreach : d.exponent ≤ Decimal.reach) (negative : Bool) :
    ofDecimal negative d =
      ofRatio negative (d.digits * 10 ^ d.exponent.toNat * unitsPerOne) 1 := by
  have hlow : ¬ d.exponent < -((Decimal.reach + d.digits.log2 : Nat) : Int) := by omega
  unfold ofDecimal
  by_cases hzero : d.digits = 0
  · rw [if_pos hzero, hzero, Nat.zero_mul, Nat.zero_mul]
  · rw [if_neg hzero, if_neg (Int.not_lt.2 hreach), if_neg hlow, if_pos he, Nat.pow_eq]

theorem exists_ofDecimal_of_readsAs {units : Nat} {d : Decimal} (h : readsAs units d = true) :
    ∃ negative hu, ofDecimal false d = finite negative units hu := by
  unfold readsAs at h
  split at h
  · rename_i negative read hu heq
    have hread : read = units := eq_of_beq h
    subst hread
    exact ⟨negative, hu, heq⟩
  · cases h

/-- Rounding does not take an integer from above 2⁵³ to below. -/
theorem le_of_ofRatio_integer {m units : Nat} {negative negative' : Bool} {hu : Representable units}
    (hm : 2 ^ 53 ≤ m) (h : ofRatio negative (m * unitsPerOne) 1 = finite negative' units hu) :
    2 ^ 53 * unitsPerOne ≤ units := by
  have hpos : 0 < m * unitsPerOne := Nat.mul_pos (by omega) unitsPerOne_pos
  have hlow := Nat.le_trans (unitsPerOne_le_leading hm) (roundToGrid_bounds hpos).1
  simp only [ofRatio, Nat.div_one] at h
  split at h
  · cases h
    exact hlow
  · cases h

/-- A decimal without places behind the point that reads as an integer below 2⁵³ is the integer: it
cannot have been rounded down to it. -/
theorem digits_of_readsAs {n : Nat} (hn : n < 2 ^ 53) {d : Decimal} (he : 0 ≤ d.exponent)
    (h : readsAs (n * unitsPerOne) d = true) : d.digits * 10 ^ d.exponent.toNat = n := by
  obtain ⟨negative, hu, heq⟩ := exists_ofDecimal_of_readsAs h
  by_cases hreach : d.exponent ≤ Decimal.reach
  · rw [ofDecimal_of_integer he hreach] at heq
    rcases Nat.lt_or_ge (d.digits * 10 ^ d.exponent.toNat) (2 ^ 53) with hsmall | hlarge
    · rw [ofRatio_of_representable (representable_mul_unitsPerOne (Nat.le_of_lt hsmall)),
        finite.injEq] at heq
      exact Nat.eq_of_mul_eq_mul_right unitsPerOne_pos heq.2
    · have hle := Nat.le_of_mul_le_mul_right (le_of_ofRatio_integer hlarge heq) unitsPerOne_pos
      omega
  · unfold ofDecimal at heq
    split at heq
    · rename_i hzero
      rw [← Nat.zero_mul unitsPerOne,
        ofRatio_of_representable (representable_mul_unitsPerOne (Nat.zero_le _)),
        finite.injEq] at heq
      rw [hzero, Nat.zero_mul]
      exact Nat.eq_of_mul_eq_mul_right unitsPerOne_pos heq.2
    · rw [if_pos (by omega)] at heq
      cases heq

theorem neighbour?_eq_some {tie : Tie} {units : Nat} {place : Int} {d : Decimal}
    (h : neighbour? tie units place = some d) : d.exponent = place ∧ readsAs units d = true := by
  unfold neighbour? at h
  generalize inPlaces units place = quotient at h
  obtain ⟨num, den⟩ := quotient
  simp only at h
  cases hbelow : readsAs units ⟨num / den, place⟩ with
  | true =>
    cases habove : readsAs units ⟨num / den + 1, place⟩ with
    | true =>
      rw [hbelow, habove, Option.some.injEq] at h
      subst h
      split
      · exact ⟨rfl, hbelow⟩
      · exact ⟨rfl, habove⟩
    | false =>
      rw [hbelow, habove, Option.some.injEq] at h
      subst h
      exact ⟨rfl, hbelow⟩
  | false =>
    cases habove : readsAs units ⟨num / den + 1, place⟩ with
    | true =>
      rw [hbelow, habove, Option.some.injEq] at h
      subst h
      exact ⟨rfl, habove⟩
    | false =>
      rw [hbelow, habove] at h
      cases h

theorem readsAs_integer {n : Nat} (hn : n ≤ 2 ^ 53) : readsAs (n * unitsPerOne) ⟨n, 0⟩ = true := by
  have hscaled : n * 10 ^ (0 : Int).toNat = n := Nat.mul_one n
  have hread : ofDecimal false ⟨n, 0⟩ =
      finite false (n * unitsPerOne) (representable_mul_unitsPerOne hn) := by
    rw [ofDecimal_of_integer (Int.le_refl 0) (Int.natCast_nonneg _), hscaled,
      ofRatio_of_representable]
  rw [readsAs, hread]
  exact beq_self_eq_true _

theorem exists_neighbour?_of_below {tie : Tie} {units num den : Nat} {place : Int}
    (hplaces : inPlaces units place = (num, den)) (h : readsAs units ⟨num / den, place⟩ = true) :
    ∃ d, neighbour? tie units place = some d := by
  unfold neighbour?
  rw [hplaces]
  simp only [h]
  cases readsAs units ⟨num / den + 1, place⟩
  · exact ⟨_, rfl⟩
  · exact ⟨_, rfl⟩

/-- Without places behind the point, an integer has a neighbour that reads back: itself. -/
theorem exists_neighbour?_integer (tie : Tie) {n : Nat} (hn : n ≤ 2 ^ 53) :
    ∃ d, neighbour? tie (n * unitsPerOne) 0 = some d := by
  have hplaces : inPlaces (n * unitsPerOne) 0 = (n * unitsPerOne, unitsPerOne) := by
    have hnum : Nat.pow 10 (-0 : Int).toNat = 1 := rfl
    have hden : Nat.pow 10 (0 : Int).toNat = 1 := rfl
    rw [inPlaces, hnum, hden, Nat.mul_one, Nat.mul_one]
  refine exists_neighbour?_of_below hplaces ?_
  rw [div_unitsPerOne]
  exact readsAs_integer hn

/-- From fewer digits to more, the first decimal that reads back is taken, at the latest the one of
a count that is known to have one. -/
theorem exists_count_of_shortestFrom {tie : Tie} {units : Nat} {top : Int} {count first more : Nat}
    {d : Decimal} (hcount : neighbour? tie units (top - count) = some d) (hfirst : first ≤ count)
    (hmore : count < first + more) :
    ∃ shorter ≤ count, neighbour? tie units (top - shorter) =
      some (shortestFrom tie units top (List.range' first more)) := by
  induction more generalizing first with
  | zero => omega
  | succ more ih =>
    rw [List.range'_succ, shortestFrom]
    cases hnext : neighbour? tie units (top - first) with
    | some d' => exact ⟨first, hfirst, hnext⟩
    | none =>
      have hne : first ≠ count := by
        rintro rfl
        cases hnext.symm.trans hcount
      exact ih (by omega) (by omega)

/-- The decimal expansion of an integer starts at its first digit. -/
theorem leadingPlace_integer {n : Nat} (hpos : 0 < n) :
    leadingPlace (n * unitsPerOne) = (Nat.toDigits 10 n).length := by
  have hplace (e : Nat) : ((Nat.toDigits 10 (n * unitsPerOne * Nat.pow 10 e / unitsPerOne)).length :
      Int) - e = (Nat.toDigits 10 n).length := by
    rw [Nat.mul_assoc, Nat.mul_comm unitsPerOne, ← Nat.mul_assoc, div_unitsPerOne, Nat.pow_eq,
      toDigits_mul_pow hpos, List.length_append, List.length_replicate]
    omega
  have hcast : (324 : Int) = ((324 : Nat) : Int) := rfl
  rw [leadingPlace, hcast]
  generalize 324 = e
  exact hplace e

/-- **The shortest decimal of an integer below 2⁵³ is the integer**, perhaps with zeros left to the
exponent. -/
theorem shortest_eq_integer (tie : Tie) {n : Nat} (hpos : 0 < n) (hn : n < 2 ^ 53) :
    0 ≤ (shortest tie (n * unitsPerOne)).exponent ∧
      (shortest tie (n * unitsPerOne)).digits *
        10 ^ (shortest tie (n * unitsPerOne)).exponent.toNat = n := by
  have hleast : 0 < (Nat.toDigits 10 n).length := Nat.length_toDigits_pos
  have hmost : (Nat.toDigits 10 n).length ≤ 17 :=
    (Nat.length_toDigits_le_iff (by decide) (by decide)).2 (by omega)
  obtain ⟨d, hd⟩ := exists_neighbour?_integer tie (Nat.le_of_lt hn)
  rw [shortest, leadingPlace_integer hpos]
  generalize (Nat.toDigits 10 n).length = count at hleast hmost
  have hcount : neighbour? tie (n * unitsPerOne) ((count : Int) - count) = some d := by
    rw [Int.sub_self, hd]
  have hsuffices : count < 1 + sufficientDigits := by
    unfold sufficientDigits
    omega
  obtain ⟨shorter, hshorter, hshortest⟩ := exists_count_of_shortestFrom hcount hleast hsuffices
  obtain ⟨hexponent, hreads⟩ := neighbour?_eq_some hshortest
  have he : 0 ≤ (shortestFrom tie (n * unitsPerOne) count
      (List.range' 1 sufficientDigits)).exponent := by
    rw [hexponent]
    omega
  exact ⟨he, digits_of_readsAs hn he hreads⟩

/-! ### The texts of an integer -/

theorem withSign_eq_integerText (k : Int) :
    withSign (decide (k < 0)) (Nat.toDigits 10 k.natAbs) = Text.integerText k := by
  unfold withSign Text.integerText
  simp only [decide_eq_true_eq]

/-- The digits of an integer up to 2⁵³, also where they are taken from the shortest decimal. Of the
decimals that read as 2⁵³ itself, some are greater. -/
theorem positional_integer {n : Nat} (hpos : 0 < n) (hn : n ≤ 2 ^ 53) :
    (figures .up (n * unitsPerOne)).positional [] = Nat.toDigits 10 n := by
  rcases Nat.lt_or_eq_of_le hn with hlt | rfl
  · obtain ⟨he, hdigits⟩ := shortest_eq_integer .up hpos hlt
    have hdigitspos : 0 < (shortest .up (n * unitsPerOne)).digits := by
      refine Nat.pos_of_ne_zero fun hzero => ?_
      rw [hzero, Nat.zero_mul] at hdigits
      omega
    have hne : n * unitsPerOne ≠ 0 := Nat.ne_of_gt (Nat.mul_pos hpos unitsPerOne_pos)
    rw [figures, if_neg hne, Figures.positional_ofDecimal hdigitspos he, hdigits]
  · decide +kernel

section

variable {negative : Bool} {units : Nat} {hu : Representable units} {k : Int}

theorem plainText_of_lt (h : (finite negative units hu).toInt? = some k)
    (hk : k.natAbs < plainIntegerBound) :
    (finite negative units hu).plainText = Text.integerText k := by
  simp only [plainText, h, Option.filter_some, decide_eq_true hk, if_true]

theorem plainText_of_le (h : (finite negative units hu).toInt? = some k)
    (hk : plainIntegerBound ≤ k.natAbs) :
    (finite negative units hu).plainText =
      withSign negative ((figures .up units).positional []) := by
  simp only [plainText, h, Option.filter_some, decide_eq_false (Int.not_lt.2 hk),
    Bool.false_eq_true, if_false]

end

/-- **The text for reading of an integer up to 2⁵³ is its digits under its sign.** -/
theorem plainText_ofInt {k : Int} (h : k.natAbs ≤ 2 ^ 53) :
    (ofInt k).plainText = Text.integerText k := by
  have hvalue := toInt?_ofInt h
  rw [ofInt_eq_finite h] at hvalue ⊢
  rcases Int.lt_or_le k.natAbs plainIntegerBound with hsmall | hlarge
  · exact plainText_of_lt hvalue hsmall
  · have hpos : 0 < k.natAbs := by
      unfold plainIntegerBound at hlarge
      omega
    rw [plainText_of_le hvalue hlarge, positional_integer hpos h, withSign_eq_integerText]

end Number

end Reshape
