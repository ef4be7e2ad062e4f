import Mathlib.Data.Int.Basic
import Reshape.Proofs.Machine.Scene
import Reshape.Proofs.Number.Nearest

/-!
# Arithmetic on the value stack

Numbers are added and counted as signed words of 64 bits. An operand loses its fraction and stops at
the end of the range, the result wraps around, and what is pushed is the number nearest to it. So as
long as everything stays in the range, that is the number nearest to the exact result.

* `Instruction.exact?`, what an instruction does with integers;
* `Machine.exists_word`: on the stack it does that with words;
* `Machine.carryOut_arithmetic`, the number that is pushed, and where it is on the wrong side;
* `Machine.increment_wraps`, a number that counting makes less.
-/

namespace Reshape

/-- The exact result of an instruction on integers, the lower operand first. -/
def Instruction.exact? : Instruction → List Int → Option Int
  | increment, [a] => some (a + 1)
  | decrement, [a] => some (a - 1)
  | negate, [a] => some (-a)
  | add, [a, b] => some (a + b)
  | subtract, [a, b] => some (a - b)
  | _, _ => none

/-! ### Words -/

theorem bmod_of_isWord {n : Int} (h : IsWord n) : n.bmod wordCount = n := by
  unfold IsWord leastWord greatestWord at h
  exact Int.bmod_eq_of_le (by unfold wordCount; omega) (by unfold wordCount; omega)

theorem isWord_toInt (word : Int64) : IsWord word.toInt :=
  ⟨leastWord_le_toInt word, toInt_le_greatestWord word⟩

theorem Number.isNearest_ofWord (word : Int64) : (ofWord word).IsNearest word.toInt := by
  have hword := isWord_toInt word
  unfold IsWord leastWord greatestWord at hword
  exact isNearest_ofInt (by omega)

theorem Json.toWord?_of_truncate? {x : Number} {a : Int} (h : x.truncate? = some a) :
    (number x).toWord? = some (nearestWord a) := by
  rw [toWord?, toNumber?, Option.bind_some, Number.toWord?, h, Option.map_some]

namespace Machine

variable {m : Machine} {rest : List Json} {x y : Number} {a b : Int}

theorem run_mapWord (f : Int64 → Int64) (hvalues : m.values.items = .number x :: rest)
    (hx : x.truncate? = some a) :
    (Effect.mapWord f).run m = .ok ()
      { m with values := { m.values with items := Json.ofWord (f (nearestWord a)) :: rest } } := by
  have hword := Json.toWord?_of_truncate? hx
  rw [Effect.mapWord, Effect.run_bind_of_ok (run_takeWord hvalues hword)]
  rfl

theorem run_combineWords (f : Int64 → Int64 → Int64)
    (hvalues : m.values.items = .number y :: .number x :: rest) (hx : x.truncate? = some a)
    (hy : y.truncate? = some b) :
    (Effect.combineWords f).run m = .ok ()
      { m with values := { m.values with
        items := Json.ofWord (f (nearestWord a) (nearestWord b)) :: rest } } := by
  have hright := Json.toWord?_of_truncate? hy
  have hleft := Json.toWord?_of_truncate? hx
  have hbelow : ({ m with values := { m.values with items := .number x :: rest } } :
      Machine).values.items = .number x :: rest := rfl
  rw [Effect.combineWords, Effect.run_bind_of_ok (run_takeWord hvalues hright),
    Effect.run_bind_of_ok (run_takeWord hbelow hleft)]
  rfl

end Machine

/-- Arithmetic has one operand or two, and does with words what it does with integers, modulo the
number of words. -/
theorem Instruction.exact?_cases {i : Instruction} {integers : List Int} {exact : Int}
    (h : i.exact? integers = some exact) :
    (∀ run m, Machine.carryOut run i m = some (.ofEffect i.perform m)) ∧
      ((∃ (a : Int) (f : Int64 → Int64) (g : Int → Int), integers = [a] ∧
          i.perform = Effect.mapWord f ∧ (∀ a, i.exact? [a] = some (g a)) ∧
          ∀ word, (f word).toInt = (g word.toInt).bmod wordCount) ∨
        ∃ (a b : Int) (f : Int64 → Int64 → Int64) (g : Int → Int → Int), integers = [a, b] ∧
          i.perform = Effect.combineWords f ∧ (∀ a b, i.exact? [a, b] = some (g a b)) ∧
          ∀ left right, (f left right).toInt = (g left.toInt right.toInt).bmod wordCount) := by
  have hone : (1 : Int64).toInt = 1 := rfl
  unfold Instruction.exact? at h
  split at h
  · refine ⟨fun _ _ => rfl, .inl ⟨_, _, _, rfl, rfl, fun _ => rfl, fun word => ?_⟩⟩
    rw [Int64.toInt_add, hone, wordCount]
  · refine ⟨fun _ _ => rfl, .inl ⟨_, _, _, rfl, rfl, fun _ => rfl, fun word => ?_⟩⟩
    rw [Int64.toInt_sub, hone, wordCount]
  · refine ⟨fun _ _ => rfl, .inl ⟨_, _, _, rfl, rfl, fun _ => rfl, fun word => ?_⟩⟩
    rw [Int64.toInt_neg, wordCount]
  · refine ⟨fun _ _ => rfl, .inr ⟨_, _, _, _, rfl, rfl, fun _ _ => rfl, fun left right => ?_⟩⟩
    rw [Int64.toInt_add, wordCount]
  · refine ⟨fun _ _ => rfl, .inr ⟨_, _, _, _, rfl, rfl, fun _ _ => rfl, fun left right => ?_⟩⟩
    rw [Int64.toInt_sub, wordCount]
  · cases h

namespace Machine

variable {m : Machine} {below : List Json} {operands : List Number} {integers : List Int}
  {i : Instruction} {exact : Int}

/-- On the value stack an instruction takes the words nearest to its operands, and pushes the word
of their result. -/
theorem exists_word (run : Runner) (hintegers : operands.map Number.truncate? = integers.map some)
    (hexact : i.exact? integers = some exact)
    (hvalues : m.values.toList = below ++ operands.map Json.number) :
    ∃ values word result, m.carryOut run i = some (.done { m with values }) ∧
      values.toList = below ++ [Json.ofWord word] ∧
      i.exact? (integers.map fun a => (nearestWord a).toInt) = some result ∧
      word.toInt = result.bmod wordCount := by
  have hitems : m.values.items = (operands.map Json.number).reverse ++ below.reverse := by
    rw [← List.reverse_append, ← hvalues, Stack.toList, List.reverse_reverse]
  have hpushed (word : Int64) :
      Stack.toList { m.values with items := Json.ofWord word :: below.reverse } =
        below ++ [Json.ofWord word] := by
    rw [Stack.toList, List.reverse_cons, List.reverse_reverse]
  have hlength : operands.length = integers.length := by
    simpa using congrArg List.length hintegers
  obtain ⟨hcarry, ⟨a, f, g, rfl, hperform, hg, hword⟩ | ⟨a, b, f, g, rfl, hperform, hg, hword⟩⟩ :=
    Instruction.exact?_cases hexact
  · obtain ⟨x, rfl⟩ := List.length_eq_one_iff.1 hlength
    obtain ⟨hx, -⟩ := List.cons.inj hintegers
    refine ⟨_, _, _, ?_, hpushed _, hg _, hword (nearestWord a)⟩
    rw [hcarry, hperform, Outcome.ofEffect, run_mapWord f hitems hx]
    rfl
  · obtain ⟨x, y, rfl⟩ := List.length_eq_two.1 hlength
    obtain ⟨hx, hrest⟩ := List.cons.inj hintegers
    obtain ⟨hy, -⟩ := List.cons.inj hrest
    refine ⟨_, _, _, ?_, hpushed _, hg _ _, hword (nearestWord a) (nearestWord b)⟩
    rw [hcarry, hperform, Outcome.ofEffect, run_combineWords f hitems hx hy]
    rfl

/-! ### Where it goes wrong -/

/-- The last word is no number: numbers of that size are further apart. -/
theorem ne_greatestWord {x : Number} {a : Int} (h : x.truncate? = some a) : a ≠ greatestWord := by
  rintro rfl
  have hrep := Number.representable_of_truncate? h
  revert hrep
  decide +kernel

theorem representable_leastWord : Representable (leastWord.natAbs * unitsPerOne) := by
  decide +kernel

/-- The word nearest to the integer part of a number is a number, up to the last word but one. -/
theorem representable_nearestWord {x : Number} {a : Int} (hx : x.truncate? = some a)
    (h : a < greatestWord) : Representable ((nearestWord a).toInt.natAbs * unitsPerOne) := by
  rw [toInt_nearestWord, Int.min_eq_left (Int.le_of_lt h)]
  rcases Int.le_total leastWord a with hle | hle
  · rw [Int.max_eq_right hle]
    exact Number.representable_of_truncate? hx
  · rw [Int.max_eq_left hle]
    exact representable_leastWord

/-- Counting goes down beyond the words, and only there. -/
theorem increment_below_iff {x pushed : Number} {a : Int} (hx : x.truncate? = some a)
    (h : pushed.IsNearest (((nearestWord a).toInt + 1).bmod wordCount)) :
    ∃ units, pushed.extent = some units ∧ (units < a * unitsPerOne ↔ greatestWord < a) := by
  have hpos : (0 : Int) < unitsPerOne := Int.natCast_pos.2 unitsPerOne_pos
  rcases Int.lt_trichotomy a greatestWord with hsmall | hlast | hlarge
  · have hwords : (nearestWord a).toInt < greatestWord ∧ a ≤ (nearestWord a).toInt := by
      rw [toInt_nearestWord, Int.min_eq_left (Int.le_of_lt hsmall)]
      exact ⟨Int.max_lt.2 ⟨by decide, hsmall⟩, Int.le_max_right _ _⟩
    have hresult : IsWord ((nearestWord a).toInt + 1) :=
      ⟨Int.le_trans (leastWord_le_toInt _) (Int.le_add_of_nonneg_right (by decide)), hwords.1⟩
    rw [bmod_of_isWord hresult] at h
    obtain ⟨units, hunits, hle⟩ := h.exists_extent
    -- The word that is counted from is a number itself, one below the result.
    have hnear := hle _ (representable_nearestWord hx hsmall)
    have hself : a * unitsPerOne ≤ (nearestWord a).toInt * unitsPerOne :=
      Int.mul_le_mul_of_nonneg_right hwords.2 (Int.le_of_lt hpos)
    refine ⟨units, hunits, iff_of_false ?_ (Int.lt_asymm hsmall)⟩
    have hone : ((nearestWord a).toInt - ((nearestWord a).toInt + 1)).natAbs = 1 := by omega
    rw [unitsApart, Int.add_mul, Int.one_mul, hone, Nat.one_mul] at hnear
    omega
  · exact (ne_greatestWord hx hlast).elim
  · have hleast : ((nearestWord a).toInt + 1).bmod wordCount = leastWord := by
      rw [toInt_nearestWord, Int.min_eq_right (Int.le_of_lt hlarge)]
      decide
    rw [hleast] at h
    refine ⟨_, h.exact representable_leastWord, iff_of_true ?_ hlarge⟩
    exact Int.mul_lt_mul_of_pos_right (Int.lt_trans (by decide) hlarge) hpos

/-- A negation keeps the sign at the lower end of the words and beyond it, and only there. -/
theorem negate_sign_iff {x pushed : Number} {a : Int} (hx : x.truncate? = some a) (h0 : a ≠ 0)
    (h : pushed.IsNearest ((-(nearestWord a).toInt).bmod wordCount)) :
    ∃ units, pushed.extent = some units ∧ (units.sign = a.sign ↔ a ≤ leastWord) := by
  have hpos : (0 : Int) < unitsPerOne := Int.natCast_pos.2 unitsPerOne_pos
  rcases Int.lt_or_le leastWord a with hlow | hlow
  · have hresult : IsWord (-(nearestWord a).toInt) := by
      rw [toInt_nearestWord]
      unfold IsWord leastWord greatestWord at *
      omega
    rw [bmod_of_isWord hresult] at h
    rcases Int.lt_or_le greatestWord a with hlarge | hsmall
    · have hword : (nearestWord a).toInt = greatestWord := by
        rw [toInt_nearestWord, Int.min_eq_right (Int.le_of_lt hlarge)]
        rfl
      rw [hword] at h
      obtain ⟨units, hunits, hle⟩ := h.exists_extent
      have hnear := hle _ representable_leastWord
      have hneg : units < 0 := by
        have hone : (leastWord - -greatestWord).natAbs = 1 := by decide
        have htwo : (2 : Int) * unitsPerOne ≤ greatestWord * unitsPerOne :=
          Int.mul_le_mul_of_nonneg_right (by decide) (Int.le_of_lt hpos)
        rw [unitsApart, Int.neg_mul, hone, Nat.one_mul] at hnear
        omega
      refine ⟨units, hunits, iff_of_false ?_ (Int.not_le.2 hlow)⟩
      rw [Int.sign_eq_neg_one_of_neg hneg,
        Int.sign_eq_one_of_pos (Int.lt_trans (by decide) hlarge)]
      decide
    · rw [toInt_nearestWord_of_isWord ⟨Int.le_of_lt hlow, hsmall⟩] at h
      have hself := h.exact (by rw [Int.natAbs_neg]; exact Number.representable_of_truncate? hx)
      refine ⟨_, hself, iff_of_false ?_ (Int.not_le.2 hlow)⟩
      rw [Int.sign_mul, Int.sign_eq_one_of_pos hpos, Int.mul_one, Int.sign_neg]
      have hsign := mt Int.sign_eq_zero_iff_zero.1 h0
      omega
  · have hword : (-(nearestWord a).toInt).bmod wordCount = leastWord := by
      rw [toInt_nearestWord, Int.min_eq_left (Int.le_trans hlow (by decide)),
        Int.max_eq_left hlow]
      decide
    rw [hword] at h
    refine ⟨_, h.exact representable_leastWord, iff_of_true ?_ hlow⟩
    rw [Int.sign_mul, Int.sign_eq_one_of_pos hpos,
      Int.sign_eq_neg_one_of_neg (Int.lt_of_le_of_lt hlow (by decide))]
    decide

/-! ### What is pushed -/

/-- **Arithmetic on the value stack is that of words.** An instruction takes its operands off the
stack, the lower one first, and pushes a number in their place. Their integer parts stop at the ends
of the words, the result wraps around, and the number is nearest to it; that is the exact result if
the integer parts and the exact result are words. Counting pushes a number below the integer part
beyond the last word and nowhere else, and a negation keeps the sign from the least word down and
nowhere else. -/
theorem carryOut_arithmetic (run : Runner)
    (hintegers : operands.map Number.truncate? = integers.map some)
    (hexact : i.exact? integers = some exact)
    (hvalues : m.values.toList = below ++ operands.map Json.number) :
    ∃ values pushed units result, m.carryOut run i = some (.done { m with values }) ∧
      values.toList = below ++ [.number pushed] ∧ pushed.extent = some units ∧
      i.exact? (integers.map fun a => (nearestWord a).toInt) = some result ∧
      pushed.IsNearest (result.bmod wordCount) ∧
      ((∀ a ∈ integers, IsWord a) → IsWord exact → pushed.IsNearest exact) ∧
      (∀ a, i = .increment → integers = [a] →
        (units < a * unitsPerOne ↔ greatestWord < a)) ∧
      ∀ a, i = .negate → integers = [a] → a ≠ 0 → (units.sign = a.sign ↔ a ≤ leastWord) := by
  obtain ⟨values, word, result, hcarry, hpushed, hresult, hword⟩ :=
    exists_word run hintegers hexact hvalues
  have hnear := Number.isNearest_ofWord word
  rw [hword] at hnear
  obtain ⟨units, hunits, -⟩ := hnear.exists_extent
  have honly (a : Int) (h : integers = [a]) : ∃ x, Number.truncate? x = some a := by
    have hmem : some a ∈ operands.map Number.truncate? := by
      rw [hintegers, h]
      exact List.mem_singleton_self (some a)
    obtain ⟨x, -, hx⟩ := List.mem_map.1 hmem
    exact ⟨x, hx⟩
  refine ⟨values, Number.ofWord word, units, result, hcarry, hpushed, hunits, hresult, hnear,
    fun hwords hexactly => ?_, fun a hi ha => ?_, fun a hi ha h0 => ?_⟩
  · have hsame : integers.map (fun a => (nearestWord a).toInt) = integers :=
      (List.map_congr_left fun a ha => toInt_nearestWord_of_isWord (hwords a ha)).trans
        (List.map_id integers)
    rw [hsame, hexact] at hresult
    rw [← Option.some.inj hresult, bmod_of_isWord hexactly] at hnear
    exact hnear
  · obtain ⟨x, hx⟩ := honly a ha
    subst hi ha
    cases hresult
    obtain ⟨units', hunits', hiff⟩ := increment_below_iff hx hnear
    cases hunits.symm.trans hunits'
    exact hiff
  · obtain ⟨x, hx⟩ := honly a ha
    subst hi ha
    cases hresult
    obtain ⟨units', hunits', hiff⟩ := negate_sign_iff hx h0 hnear
    cases hunits.symm.trans hunits'
    exact hiff

/-- Four off two and a half: the half does not count. -/
theorem carryOut_arithmetic_of_half :
    ∃ values pushed, carryOut (run 0) .subtract { start .null {} false with
        values := ⟨"value", [.number (.ofNat 4), .number (.ofRatio false (5 * unitsPerOne) 2)]⟩ } =
          some (.done { start .null {} false with values }) ∧
      values.toList = [.number pushed] ∧ pushed.IsNearest (-2) := by
  have hoperands : [Number.ofRatio false (5 * unitsPerOne) 2, .ofNat 4].map Number.truncate? =
      [2, 4].map some := by decide +kernel
  have hexact : Instruction.subtract.exact? [2, 4] = some (-2) := rfl
  obtain ⟨values, pushed, _, _, hcarry, hvalues, -, -, -, hnear, -⟩ :=
    @carryOut_arithmetic { start .null {} false with
        values := ⟨"value", [.number (.ofNat 4), .number (.ofRatio false (5 * unitsPerOne) 2)]⟩ }
      [] _ _ _ _ (run 0) hoperands hexact rfl
  refine ⟨values, pushed, hcarry, hvalues, hnear ?_ ?_⟩
  · unfold IsWord
    decide
  · unfold IsWord
    decide

/-- Counting on from 2⁶³ goes to the other end of the words. -/
theorem increment_wraps :
    ∃ (x pushed : Number) (values : Stack Json), x.truncate? = some (2 ^ 63) ∧
      carryOut (run 0) .increment { start .null {} false with values := ⟨"value", [.number x]⟩ } =
        some (.done { start .null {} false with values }) ∧
      values.toList = [.number pushed] ∧ ¬ pushed.IsNearest (2 ^ 63 + 1) ∧
      pushed.lt x = true := by
  have hx : (Number.ofInt (2 ^ 63)).truncate? = some (2 ^ 63) := by decide +kernel
  have hoperands : [Number.ofInt (2 ^ 63)].map Number.truncate? = [2 ^ 63].map some :=
    congrArg (· :: []) hx
  have hexact : Instruction.increment.exact? [2 ^ 63] = some (2 ^ 63 + 1) := rfl
  obtain ⟨values, word, _, hcarry, hvalues, hresult, hword⟩ :=
    @exists_word { start .null {} false with values := ⟨"value", [.number (.ofInt (2 ^ 63))]⟩ }
      [] _ _ _ _ (run 0) hoperands hexact rfl
  cases hresult
  have hleast : word.toInt = leastWord := by
    rw [hword]
    decide
  have hpushed : (Number.ofWord word).extent = some (leastWord * unitsPerOne) := by
    rw [← hleast]
    exact (Number.isNearest_ofWord word).exact (by rw [hleast]; exact representable_leastWord)
  have hrep : Representable ((2 ^ 63 : Int).natAbs * unitsPerOne) := by decide +kernel
  have hself : (Number.ofInt (2 ^ 63)).extent = some ((2 ^ 63 : Int) * unitsPerOne) :=
    (Number.isNearest_ofInt (by decide)).exact hrep
  have hpos : (0 : Int) < unitsPerOne := Int.natCast_pos.2 unitsPerOne_pos
  have hbelow : leastWord * unitsPerOne < (2 ^ 63 : Int) * unitsPerOne :=
    Int.mul_lt_mul_of_pos_right (by decide) hpos
  refine ⟨.ofInt (2 ^ 63), .ofWord word, values, hx, hcarry, hvalues, fun h => ?_, ?_⟩
  · obtain ⟨units, hunits, hle⟩ := h.exists_extent
    have hunits : leastWord * unitsPerOne = units := Option.some.inj (hpushed.symm.trans hunits)
    -- The number that is counted from would have been nearer.
    have hnear := hle (2 ^ 63) hrep
    have hone : ((2 : Int) ^ 63 - (2 ^ 63 + 1)).natAbs = 1 := by decide
    rw [unitsApart, hone, Nat.one_mul, Int.add_mul, Int.one_mul] at hnear
    omega
  · exact (Number.lt_eq_decide hpushed hself).trans (decide_eq_true hbelow)

end Machine

end Reshape
