import Mathlib.Algebra.Group.Int.Defs
import Mathlib.Algebra.Group.Nat.Defs
import Reshape.Json.Basic

/-!
# Exact counts

A natural number up to 2⁵³ is a number of a document, and reading it back as a word or as an array
position gives it again. So programs count that far without rounding.

* `representable_mul_unitsPerOne`: the units in such a number can be represented;
* `ofNat_eq_finite`, the number of a count;
* `toIndex?_ofNat`, `toWord?_ofNat`, `le_ofNat`, what is read from it;
* `exists_toWord?_ofInt`: there is a word to be read as long as the integer has 64 bits at most;
* `ofWord_add`, addition of counts as addition of words;
* `toIndex?_ofWord_of_neg`, `toIndex?_ofWord`, `exists_toIndex?_ofWord` and `toIndex?_ofWord_lt`,
  the position of any word: none below zero, the word itself up to 2⁵³, and no less beyond.
-/

namespace Reshape

theorem two_pow_dvd_scaled {n : Nat} (h : n ≤ 2 ^ 53) (e : Nat) :
    Nat.pow 2 ((n * Nat.pow 2 e).log2 - 52) ∣ n * Nat.pow 2 e := by
  simp only [Nat.pow_eq]
  rcases Nat.eq_zero_or_pos n with rfl | hpos
  · simp
  rcases Nat.lt_or_eq_of_le h with hlt | rfl
  · -- the leading bit stands below bit 53 of the scaled one
    have hlog : (n * 2 ^ e).log2 < 53 + e := by
      rw [Nat.log2_lt (Nat.ne_of_gt (Nat.mul_pos hpos (Nat.two_pow_pos e))), Nat.pow_add]
      exact Nat.mul_lt_mul_of_pos_right hlt (Nat.two_pow_pos e)
    exact Nat.dvd_mul_left_of_dvd (Nat.pow_dvd_pow 2 (by omega)) n
  · rw [← Nat.pow_add, Nat.log2_two_pow]
    exact Nat.pow_dvd_pow 2 (by omega)

theorem scaled_lt {n : Nat} (h : n ≤ 2 ^ 53) {e k : Nat} (hk : e + 54 ≤ k) :
    n * Nat.pow 2 e < Nat.pow 2 k := by
  simp only [Nat.pow_eq]
  calc n * 2 ^ e < 2 ^ 54 * 2 ^ e := Nat.mul_lt_mul_of_pos_right (by omega) (Nat.two_pow_pos e)
    _ = 2 ^ (54 + e) := (Nat.pow_add 2 54 e).symm
    _ ≤ 2 ^ k := Nat.pow_le_pow_right (by decide) (by omega)

/-- The two powers of two of the number format, far enough from each other for words. -/
theorem exists_exponents :
    ∃ e k, unitsPerOne = Nat.pow 2 e ∧ overflowUnits = Nat.pow 2 k ∧ e + 65 ≤ k := by
  unfold unitsPerOne overflowUnits
  exact ⟨_, _, rfl, rfl, by decide⟩

/-- The units in a whole number of at most 53 bits can be represented. -/
theorem representable_mul_unitsPerOne {n : Nat} (h : n ≤ 2 ^ 53) :
    Representable (n * unitsPerOne) := by
  obtain ⟨e, k, he, hk, hle⟩ := exists_exponents
  unfold Representable
  rw [he, hk]
  exact ⟨scaled_lt h (by omega), two_pow_dvd_scaled h e⟩

theorem two_pow_pos (e : Nat) : 0 < Nat.pow 2 e := Nat.two_pow_pos e

theorem unitsPerOne_pos : 0 < unitsPerOne := by
  obtain ⟨e, k, he, -, -⟩ := exists_exponents
  rw [he]
  exact two_pow_pos e

/-- The whole number of a count of units. -/
theorem div_unitsPerOne (n : Nat) : n * unitsPerOne / unitsPerOne = n :=
  Nat.mul_div_cancel n unitsPerOne_pos

namespace Number

theorem roundToGrid_of_dvd {grid num : Nat} (hpos : 0 < grid) (h : grid ∣ num) :
    roundToGrid grid num 1 = num := by
  have hmod : num % grid = 0 := Nat.mod_eq_zero_of_dvd h
  simp [roundToGrid, hmod, hpos, Nat.mul_div_cancel' h]

theorem ofRatio_of_representable {num : Nat} (h : Representable num) (negative : Bool) :
    ofRatio negative num 1 = finite negative num h := by
  have hround : roundToGrid (Nat.pow 2 ((num / 1).log2 - 52)) num 1 = num := by
    rw [Nat.div_one]
    exact roundToGrid_of_dvd (two_pow_pos _) h.2
  unfold ofRatio
  simp only [hround, dif_pos h]

/-- A count is the number of its units. -/
theorem ofNat_eq_finite {n : Nat} (h : n ≤ 2 ^ 53) :
    ofNat n = finite false (n * unitsPerOne) (representable_mul_unitsPerOne h) := by
  have hneg : decide ((n : Int) < 0) = false := decide_eq_false (by omega)
  unfold ofNat ofInt
  rw [hneg, Int.natAbs_natCast, ofRatio_of_representable]

theorem truncate?_ofNat {n : Nat} (h : n ≤ 2 ^ 53) : (ofNat n).truncate? = some (n : Int) := by
  rw [ofNat_eq_finite h, truncate?, div_unitsPerOne]
  rfl

theorem toWord?_ofNat {n : Nat} (h : n ≤ 2 ^ 53) : (ofNat n).toWord? = some (Int64.ofInt n) := by
  rw [toWord?, truncate?_ofNat h, Option.map_some, nearestWord, leastWord, greatestWord,
    Int.min_eq_left (by omega), Int.max_eq_right (by omega)]

theorem toIndex?_ofNat {n : Nat} (h : n ≤ 2 ^ 53) : (ofNat n).toIndex? = some n := by
  have hlast : n ≤ lastIndex := Nat.le_trans h (by decide)
  have hsign : 0 ≤ signed false (n * unitsPerOne) := Int.natCast_nonneg _
  rw [ofNat_eq_finite h, toIndex?, if_pos hsign, div_unitsPerOne, Nat.min_eq_left hlast]

theorem le_finite (negative negative' : Bool) {units units' : Nat} (h : Representable units)
    (h' : Representable units') :
    (finite negative units h).le (finite negative' units' h') =
      decide (signed negative units ≤ signed negative' units') := rfl

theorem le_ofNat {a b : Nat} (ha : a ≤ 2 ^ 53) (hb : b ≤ 2 ^ 53) :
    (ofNat a).le (ofNat b) = decide (a ≤ b) := by
  have hunits : signed false (a * unitsPerOne) ≤ signed false (b * unitsPerOne) ↔ a ≤ b :=
    Int.ofNat_le.trans (Nat.mul_le_mul_right_iff unitsPerOne_pos)
  rw [ofNat_eq_finite ha, ofNat_eq_finite hb, le_finite, decide_eq_decide]
  exact hunits

/-- Words add up as counts do. -/
theorem ofWord_add {a b : Nat} (h : a + b ≤ 2 ^ 53) :
    ofWord (Int64.ofInt a + Int64.ofInt b) = ofNat (a + b) := by
  rw [← Int64.ofInt_add, ofWord, Int64.toInt_ofInt_of_le (by omega) (by omega), ofNat,
    Int.natCast_add]

/-! ### Any word -/

/-- The leading bit of a scaled integer of at most 64 bits. -/
theorem log2_scaled_le {n : Nat} (h : n ≤ 2 ^ 63) (e : Nat) :
    (n * Nat.pow 2 e).log2 ≤ 63 + e := by
  rcases Nat.eq_zero_or_pos n with rfl | hpos
  · simp
  have hscaled : n * Nat.pow 2 e < 2 ^ (63 + e + 1) := by
    calc n * 2 ^ e ≤ 2 ^ 63 * 2 ^ e := Nat.mul_le_mul_right _ h
      _ = 2 ^ (63 + e) := (Nat.pow_add 2 63 e).symm
      _ < 2 ^ (63 + e + 1) := Nat.pow_lt_pow_right (by decide) (by omega)
  have hne : n * Nat.pow 2 e ≠ 0 := Nat.ne_of_gt (Nat.mul_pos hpos (two_pow_pos e))
  exact Nat.le_of_lt_succ ((Nat.log2_lt hne).2 hscaled)

/-- A rounded integer is a multiple of the grid, by a factor of at most 53 bits. -/
theorem exists_roundToGrid_eq (num : Nat) :
    ∃ factor ≤ 2 ^ 53, num / Nat.pow 2 (num.log2 - 52) ≤ factor ∧
      factor ≤ num / Nat.pow 2 (num.log2 - 52) + 1 ∧
      roundToGrid (Nat.pow 2 (num.log2 - 52)) num 1 = factor * Nat.pow 2 (num.log2 - 52) := by
  have hlt : num < 2 ^ 53 * 2 ^ (num.log2 - 52) := by
    rw [← Nat.pow_add]
    exact Nat.lt_of_lt_of_le Nat.lt_log2_self (Nat.pow_le_pow_right (by decide) (by omega))
  have hquot : num / Nat.pow 2 (num.log2 - 52) < 2 ^ 53 :=
    (Nat.div_lt_iff_lt_mul (two_pow_pos _)).2 hlt
  simp only [roundToGrid, Nat.mul_one]
  split
  · exact ⟨_, Nat.le_of_lt hquot, Nat.le_refl _, Nat.le_succ _, Nat.mul_comm _ _⟩
  · exact ⟨_, hquot, Nat.le_succ _, Nat.le_refl _, Nat.mul_comm _ _⟩

/-- Rounding keeps the leading bit, and adds less than the grid. -/
theorem roundToGrid_bounds {num : Nat} (hpos : 0 < num) :
    2 ^ num.log2 ≤ roundToGrid (Nat.pow 2 (num.log2 - 52)) num 1 ∧
      roundToGrid (Nat.pow 2 (num.log2 - 52)) num 1 ≤ num + Nat.pow 2 (num.log2 - 52) := by
  obtain ⟨factor, -, hle, hge, heq⟩ := exists_roundToGrid_eq num
  have hgrid : 2 ^ num.log2 = 2 ^ (num.log2 - (num.log2 - 52)) * Nat.pow 2 (num.log2 - 52) := by
    rw [Nat.pow_eq, ← Nat.pow_add, Nat.sub_add_cancel (by omega)]
  rw [heq]
  constructor
  · have hbelow : 2 ^ num.log2 ≤ num := Nat.log2_self_le (Nat.ne_of_gt hpos)
    rw [hgrid] at hbelow ⊢
    exact Nat.mul_le_mul_right _
      (Nat.le_trans ((Nat.le_div_iff_mul_le (two_pow_pos _)).2 hbelow) hle)
  · calc factor * Nat.pow 2 (num.log2 - 52)
        ≤ (num / Nat.pow 2 (num.log2 - 52) + 1) * Nat.pow 2 (num.log2 - 52) :=
          Nat.mul_le_mul_right _ hge
      _ = num / Nat.pow 2 (num.log2 - 52) * Nat.pow 2 (num.log2 - 52) +
          Nat.pow 2 (num.log2 - 52) := Nat.succ_mul _ _
      _ ≤ num + Nat.pow 2 (num.log2 - 52) :=
          Nat.add_le_add_right (Nat.div_mul_le_self _ _) _

/-- A rounded integer of at most 64 bits can be represented. -/
theorem representable_roundToGrid {n : Nat} (h : n ≤ 2 ^ 63) :
    Representable
      (roundToGrid (Nat.pow 2 ((n * unitsPerOne).log2 - 52)) (n * unitsPerOne) 1) := by
  obtain ⟨e, k, he, hk, hle⟩ := exists_exponents
  obtain ⟨factor, hfactor, -, -, heq⟩ := exists_roundToGrid_eq (n * unitsPerOne)
  rw [heq, he]
  have hlog := log2_scaled_le h e
  unfold Representable
  rw [hk]
  exact ⟨scaled_lt hfactor (by omega), two_pow_dvd_scaled hfactor _⟩

/-- The number of an integer of at most 64 bits is finite. -/
theorem exists_ofInt_eq_finite {n : Int} (h : n.natAbs ≤ 2 ^ 63) (h0 : n ≠ 0) :
    ∃ units hu, ofInt n = finite (decide (n < 0)) units hu ∧
      2 ^ (n.natAbs * unitsPerOne).log2 ≤ units ∧
      units ≤ (2 ^ 63 + 2 ^ 11) * unitsPerOne := by
  have hpos : 0 < n.natAbs * unitsPerOne := Nat.mul_pos (Int.natAbs_pos.2 h0) unitsPerOne_pos
  have hrep := representable_roundToGrid h
  have hbounds := roundToGrid_bounds hpos
  refine ⟨_, hrep, ?_, hbounds.1, Nat.le_trans hbounds.2 ?_⟩
  · unfold ofInt ofRatio
    rw [Nat.div_one]
    exact dif_pos hrep
  · have hgrid : Nat.pow 2 ((n.natAbs * unitsPerOne).log2 - 52) ≤ 2 ^ 11 * unitsPerOne := by
      obtain ⟨e, k, he, -, -⟩ := exists_exponents
      have hlog := log2_scaled_le h e
      rw [he]
      simp only [Nat.pow_eq] at hlog ⊢
      rw [← Nat.pow_add]
      exact Nat.pow_le_pow_right (by decide) (by omega)
    rw [Nat.add_mul]
    exact Nat.add_le_add (Nat.mul_le_mul_right _ h) hgrid

/-- The number of an integer of at most 64 bits has an integer part. -/
theorem exists_toWord?_ofInt {n : Int} (h : n.natAbs ≤ 2 ^ 63) :
    ∃ word, (ofInt n).toWord? = some word := by
  by_cases h0 : n = 0
  · subst h0
    exact ⟨_, toWord?_ofNat (Nat.zero_le _)⟩
  · obtain ⟨units, hu, heq, -, -⟩ := exists_ofInt_eq_finite h h0
    rw [heq]
    exact ⟨_, rfl⟩

theorem scaled_le_leading {n : Nat} (h : 2 ^ 53 ≤ n) (e : Nat) :
    2 ^ 53 * Nat.pow 2 e ≤ 2 ^ (n * Nat.pow 2 e).log2 := by
  have hne : n * Nat.pow 2 e ≠ 0 := Nat.ne_of_gt (Nat.mul_pos (by omega) (two_pow_pos e))
  have hscaled : 2 ^ (53 + e) ≤ n * Nat.pow 2 e := by
    rw [Nat.pow_add]
    exact Nat.mul_le_mul_right _ h
  rw [Nat.pow_eq, ← Nat.pow_add]
  exact Nat.pow_le_pow_right (by decide) ((Nat.le_log2 hne).2 hscaled)

theorem unitsPerOne_le_leading {n : Nat} (h : 2 ^ 53 ≤ n) :
    2 ^ 53 * unitsPerOne ≤ 2 ^ (n * unitsPerOne).log2 := by
  obtain ⟨e, k, he, -, -⟩ := exists_exponents
  rw [he]
  exact scaled_le_leading h e

/-- There is no position below zero. -/
theorem toIndex?_ofWord_of_neg {word : Int64} (h : word.toInt < 0) :
    (ofWord word).toIndex? = none := by
  have hbound := leastWord_le_toInt word
  obtain ⟨units, hu, heq, hlow, -⟩ :=
    exists_ofInt_eq_finite (n := word.toInt) (by unfold leastWord at hbound; omega) (by omega)
  have hpos : 0 < units := Nat.lt_of_lt_of_le (Nat.two_pow_pos _) hlow
  have hsign : ¬ 0 ≤ signed true units := by
    simp only [signed, if_true]
    omega
  rw [ofWord, heq, decide_eq_true h, toIndex?, if_neg hsign]

/-- The position of a word is the word itself up to 2⁵³. -/
theorem toIndex?_ofWord {word : Int64} (h0 : 0 ≤ word.toInt) (h : word.toInt ≤ 2 ^ 53) :
    (ofWord word).toIndex? = some word.toInt.toNat := by
  have hof : ofWord word = ofNat word.toInt.toNat := by
    rw [ofWord, ofNat, Int.toNat_of_nonneg h0]
  rw [hof, toIndex?_ofNat (by omega)]

/-- The position of a greater word is rounded, and not below 2⁵³. -/
theorem exists_toIndex?_ofWord {word : Int64} (h : 2 ^ 53 ≤ word.toInt) :
    ∃ position, (ofWord word).toIndex? = some position ∧ 2 ^ 53 ≤ position := by
  have hbound := toInt_le_greatestWord word
  obtain ⟨units, hu, heq, hlow, -⟩ :=
    exists_ofInt_eq_finite (n := word.toInt) (by unfold greatestWord at hbound; omega) (by omega)
  have hsign : 0 ≤ signed false units := Int.natCast_nonneg _
  refine ⟨min (units / unitsPerOne) lastIndex, ?_, Nat.le_min.2 ⟨?_, by decide⟩⟩
  · rw [ofWord, heq, decide_eq_false (by omega), toIndex?, if_pos hsign]
  · refine (Nat.le_div_iff_mul_le unitsPerOne_pos).2 (Nat.le_trans ?_ hlow)
    exact unitsPerOne_le_leading (n := word.toInt.natAbs) (by omega)

/-- No word is rounded up to the last position. -/
theorem toIndex?_ofWord_lt {word : Int64} {position : Nat}
    (h : (ofWord word).toIndex? = some position) : position < lastIndex := by
  have hlow := leastWord_le_toInt word
  have hhigh := toInt_le_greatestWord word
  unfold leastWord at hlow
  unfold greatestWord at hhigh
  by_cases h0 : word.toInt = 0
  · rw [toIndex?_ofWord (by omega) (by omega)] at h
    cases h
    rw [h0]
    decide
  · obtain ⟨units, hu, heq, -, hle⟩ := exists_ofInt_eq_finite (n := word.toInt) (by omega) h0
    rw [ofWord, heq, toIndex?] at h
    split at h
    · cases h
      have hdiv : units / unitsPerOne ≤ 2 ^ 63 + 2 ^ 11 := by
        rw [← div_unitsPerOne (2 ^ 63 + 2 ^ 11)]
        exact Nat.div_le_div_right hle
      have hlast : lastIndex = 18446744073709551615 := rfl
      omega
    · cases h

end Number

namespace Json

theorem toIndex?_ofNat {n : Nat} (h : n ≤ 2 ^ 53) : (ofNat n).toIndex? = some n := by
  rw [ofNat, toIndex?, toNumber?, Option.bind_some, Number.toIndex?_ofNat h]

theorem toWord?_ofNat {n : Nat} (h : n ≤ 2 ^ 53) : (ofNat n).toWord? = some (Int64.ofInt n) := by
  rw [ofNat, toWord?, toNumber?, Option.bind_some, Number.toWord?_ofNat h]

theorem exists_toWord?_ofNat {n : Nat} (h : n ≤ 2 ^ 63) :
    ∃ word, (ofNat n).toWord? = some word := by
  rw [ofNat, toWord?, toNumber?, Option.bind_some, Number.ofNat]
  exact Number.exists_toWord?_ofInt h

theorem exists_toWord?_ofWord (word : Int64) : ∃ word', (ofWord word).toWord? = some word' := by
  have hlow := leastWord_le_toInt word
  have hhigh := toInt_le_greatestWord word
  unfold leastWord at hlow
  unfold greatestWord at hhigh
  rw [ofWord, toWord?, toNumber?, Option.bind_some, Number.ofWord]
  exact Number.exists_toWord?_ofInt (by omega)

theorem ofWord_add {a b : Nat} (h : a + b ≤ 2 ^ 53) :
    ofWord (Int64.ofInt a + Int64.ofInt b) = ofNat (a + b) :=
  congrArg number (Number.ofWord_add h)

end Json

end Reshape
