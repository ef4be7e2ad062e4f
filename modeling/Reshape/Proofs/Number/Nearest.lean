import Reshape.Proofs.Number.Exact

/-!
# The nearest number

An integer of 64 bits becomes the number that is nearest to it. What is compared is the distance in
units, so nothing is rounded on the way.

* `Number.IsNearest`, of an integer and a number;
* `roundToGrid_le` and `roundToGrid_nearest`: rounding to a grid goes to the nearest multiple, which
  is nearer than the magnitudes between the multiples;
* `Number.isNearest_ofInt`;
* `IsNearest.exists_extent`, how far a nearest number can be from the integer;
* `IsNearest.exact` and `representable_of_truncate?`: an integer that is a number has
  no other nearest one, and the integer part of a number is a number.
-/

namespace Reshape

/-- The distance in units between a signed count of units and an integer. -/
def unitsApart (units n : Int) : Nat := (units - n * unitsPerOne).natAbs

/-- No finite number is nearer to an integer than this one. -/
def Number.IsNearest (n : Int) (x : Number) : Prop :=
  ∃ negative units hunits, x = finite negative units hunits ∧
    ∀ negative' units', Representable units' →
      unitsApart (signed negative units) n ≤ unitsApart (signed negative' units') n

/-! ### Rounding -/

namespace Number

/-- No multiple of the grid is nearer than the one that is rounded to. -/
theorem roundToGrid_le {grid : Nat} (num factor : Nat) (hpos : 0 < grid) :
    ((roundToGrid grid num 1 : Int) - num).natAbs ≤ ((grid * factor : Int) - num).natAbs := by
  have hnum : grid * (num / grid) + num % grid = num := Nat.div_add_mod num grid
  have hrest : num % grid < grid := Nat.mod_lt num hpos
  -- A multiple is below the integer, by the rest or more, or above it by what the rest leaves.
  have hfactor : grid * factor ≤ grid * (num / grid) ∨
      grid * (num / grid) + grid ≤ grid * factor := by
    rcases Nat.lt_or_ge (num / grid) factor with hlt | hle
    · exact .inr (Nat.mul_le_mul_left grid (Nat.succ_le_of_lt hlt))
    · exact .inl (Nat.mul_le_mul_left grid hle)
  have habove : grid * (num / grid + 1) = grid * (num / grid) + grid := Nat.mul_succ _ _
  rw [← Int.natCast_mul]
  simp only [roundToGrid, Nat.mul_one]
  split <;> omega

/-- Nothing that can be represented is nearer than what is rounded to with 53 bits. -/
theorem roundToGrid_nearest (num : Nat) {units : Nat} (hunits : Representable units) :
    ((roundToGrid (Nat.pow 2 (num.log2 - 52)) num 1 : Int) - num).natAbs ≤
      ((units : Int) - num).natAbs := by
  have hle (factor : Nat) := roundToGrid_le num factor (two_pow_pos (num.log2 - 52))
  rcases Nat.lt_or_ge units.log2 num.log2 with hlt | hge
  · -- Between the number and the integer there is a power of two, which is on the grid.
    have hgrid : Nat.pow 2 (num.log2 - 52) ∣ 2 ^ num.log2 :=
      Nat.pow_dvd_pow 2 (Nat.sub_le _ _)
    obtain ⟨factor, hfactor⟩ := hgrid
    have hbelow : units < 2 ^ num.log2 :=
      Nat.lt_of_lt_of_le Nat.lt_log2_self (Nat.pow_le_pow_right (by decide) hlt)
    have hnum : num ≠ 0 := by
      rintro rfl
      exact Nat.not_lt_zero _ hlt
    have hself : 2 ^ num.log2 ≤ num := Nat.log2_self_le hnum
    have hround := hle factor
    rw [← Int.natCast_mul, ← hfactor] at hround
    omega
  · -- The number is on the grid itself.
    have hdvd : Nat.pow 2 (num.log2 - 52) ∣ units :=
      Nat.dvd_trans (Nat.pow_dvd_pow 2 (Nat.sub_le_sub_right hge 52)) hunits.2
    obtain ⟨factor, rfl⟩ := hdvd
    have hround := hle factor
    rwa [← Int.natCast_mul] at hround

/-! ### Integers -/

theorem natAbs_signed (negative : Bool) (magnitude : Nat) :
    (signed negative magnitude).natAbs = magnitude := by
  unfold signed
  split <;> omega

/-- The units in an integer. -/
theorem mul_unitsPerOne (n : Int) :
    n * unitsPerOne = signed (decide (n < 0)) (n.natAbs * unitsPerOne) := by
  rw [signed, Int.natCast_mul]
  split
  next hneg =>
    rw [Int.ofNat_natAbs_of_nonpos (Int.le_of_lt (of_decide_eq_true hneg)), Int.neg_mul, Int.neg_neg]
  next hneg =>
    rw [Int.natAbs_of_nonneg (Int.not_lt.1 (of_decide_eq_false (Bool.eq_false_iff.2 hneg)))]

/-- **The number of an integer of at most 64 bits is nearest to it.** -/
theorem isNearest_ofInt {n : Int} (h : n.natAbs ≤ 2 ^ 63) : (ofInt n).IsNearest n := by
  have hrep := representable_roundToGrid h
  have hof : ofInt n = finite (decide (n < 0)) _ hrep := by
    unfold ofInt ofRatio
    rw [Nat.div_one]
    exact dif_pos hrep
  have hzero : Representable 0 := by
    simpa using representable_mul_unitsPerOne (Nat.zero_le (2 ^ 53))
  refine ⟨_, _, hrep, hof, fun negative' units' hunits' => ?_⟩
  have hnear := roundToGrid_nearest (n.natAbs * unitsPerOne) hunits'
  have hnearer := roundToGrid_nearest (n.natAbs * unitsPerOne) hzero
  rw [unitsApart, unitsApart, mul_unitsPerOne]
  generalize roundToGrid _ _ 1 = rounded at hnear hnearer ⊢
  generalize n.natAbs * unitsPerOne = num at hnear hnearer ⊢
  -- A number of the other sign is no nearer than zero.
  cases decide (n < 0) <;> cases negative' <;>
    simp only [signed, if_true, if_false, Bool.false_eq_true] <;> omega

/-- A nearest number is not further from the integer than another integer that is a number. -/
theorem IsNearest.exists_extent {n : Int} {x : Number} (h : x.IsNearest n) :
    ∃ units, x.extent = some units ∧ ∀ other : Int, Representable (other.natAbs * unitsPerOne) →
      unitsApart units n ≤ (other - n).natAbs * unitsPerOne := by
  obtain ⟨negative, units, hunits, rfl, hnear⟩ := h
  refine ⟨signed negative units, rfl, fun other hother => ?_⟩
  have hle := hnear (decide (other < 0)) _ hother
  have happart : unitsApart (other * unitsPerOne) n = (other - n).natAbs * unitsPerOne := by
    rw [unitsApart, ← Int.sub_mul, Int.natAbs_mul, Int.natAbs_natCast]
  rwa [← mul_unitsPerOne, happart] at hle

/-- An integer that is a number has no other nearest one. -/
theorem IsNearest.exact {n : Int} {x : Number} (h : x.IsNearest n)
    (hn : Representable (n.natAbs * unitsPerOne)) : x.extent = some (n * unitsPerOne) := by
  obtain ⟨units, hunits, hle⟩ := h.exists_extent
  have hsame := hle n hn
  rw [Int.sub_self, Int.natAbs_zero, Nat.zero_mul, unitsApart] at hsame
  rw [hunits]
  exact congrArg some (by omega)

theorem lt_eq_decide {x y : Number} {a b : Int} (hx : x.extent = some a) (hy : y.extent = some b) :
    x.lt y = decide (a < b) := by
  rw [lt, related, hx, hy]

/-! ### Integer parts -/

/-- A number as large as that has no fraction. -/
theorem dvd_of_large {units : Nat} (hge : 2 ^ 53 ≤ units / unitsPerOne)
    (hunits : Representable units) : unitsPerOne ∣ units := by
  have hlarge := (Nat.le_div_iff_mul_le unitsPerOne_pos).1 hge
  obtain ⟨e, -, he, -, -⟩ := exists_exponents
  rw [he] at hlarge ⊢
  have hne : units ≠ 0 :=
    Nat.ne_of_gt (Nat.lt_of_lt_of_le (Nat.mul_pos (Nat.two_pow_pos 53) (two_pow_pos e)) hlarge)
  have hlog : 53 + e ≤ units.log2 := by
    rw [Nat.le_log2 hne, Nat.pow_add]
    exact hlarge
  exact Nat.dvd_trans (Nat.pow_dvd_pow 2 (by omega)) hunits.2

/-- The integer part of a number is a number. -/
theorem representable_of_truncate? {x : Number} {a : Int} (h : x.truncate? = some a) :
    Representable (a.natAbs * unitsPerOne) := by
  cases x with
  | finite negative units hunits =>
    cases h
    rw [natAbs_signed]
    rcases Nat.lt_or_ge (units / unitsPerOne) (2 ^ 53) with hlt | hge
    · exact representable_mul_unitsPerOne (Nat.le_of_lt hlt)
    · rwa [Nat.div_mul_cancel (dvd_of_large hge hunits)]
  | _ => cases h

end Number

end Reshape
