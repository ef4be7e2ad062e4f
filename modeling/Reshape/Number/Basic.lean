import Reshape.Word

/-!
# Binary floating-point numbers

The numbers of a document: the double-precision numbers of the IEEE 754 standard, as exact
arithmetic on natural numbers. A finite magnitude is a count of units of 2⁻¹⁰⁷⁴, the least
positive magnitude, so that comparing, truncating and rounding are operations on integers.

* `Representable`, the magnitudes there are: at most 53 significant bits, below 2¹⁰²⁴;
* `Number`, with a sign of its own on zero;
* `ofRatio`, rounding to nearest, a half to even; `ofInt`;
* `Number.extent`, the signed count of units that `==`, `<` and `≤` compare;
* `Number.truncate?`, `Number.isIntegral`, and the two views as 64-bit integers, which stop at the
  ends of their ranges.
-/

namespace Reshape

/-- The units in the number one. -/
def unitsPerOne : Nat := Nat.pow 2 1074

/-- The units in 2¹⁰²⁴, the first magnitude that is too large. -/
def overflowUnits : Nat := Nat.pow 2 2098

/-- A count of units that is the magnitude of a number: it is not too large, and no bit below the
53 leading ones is set. -/
def Representable (units : Nat) : Prop :=
  units < overflowUnits ∧ Nat.pow 2 (units.log2 - 52) ∣ units

instance (units : Nat) : Decidable (Representable units) :=
  inferInstanceAs (Decidable (_ ∧ _))

/-- A double-precision number. -/
inductive Number where
  /-- No number. -/
  | nan
  /-- An infinity. -/
  | infinite (negative : Bool)
  /-- A sign and a magnitude; the sign of zero is kept. -/
  | finite (negative : Bool) (units : Nat) (representable : Representable units)

namespace Number

/-- The multiple of `grid` that is nearest to `num / den`; of two that are equally near, the one
with the even factor. -/
def roundToGrid (grid num den : Nat) : Nat :=
  let step := grid * den
  let below := num / step
  let rest := num % step
  if 2 * rest < step ∨ 2 * rest = step ∧ below % 2 = 0 then grid * below else grid * (below + 1)

/-- The number nearest to `num / den` units. What reaches 2¹⁰²⁴ after rounding is infinite. -/
def ofRatio (negative : Bool) (num den : Nat) : Number :=
  let units := roundToGrid (Nat.pow 2 ((num / den).log2 - 52)) num den
  if h : Representable units then finite negative units h else infinite negative

/-- The number nearest to an integer. -/
def ofInt (n : Int) : Number := ofRatio (decide (n < 0)) (n.natAbs * unitsPerOne) 1

/-- The number nearest to a natural number. -/
def ofNat (n : Nat) : Number := ofInt n

/-- A magnitude under its sign. -/
def signed (negative : Bool) (magnitude : Nat) : Int :=
  if negative then -(magnitude : Int) else magnitude

/-- The value in units. An infinity counts as the first magnitude that is too large. -/
def extent : Number → Option Int
  | nan => none
  | infinite negative => some (signed negative overflowUnits)
  | finite negative units _ => some (signed negative units)

/-- Whether a relation holds between two values; it never does where there is no number. -/
def related (relation : Int → Int → Bool) (a b : Number) : Bool :=
  match a.extent, b.extent with
  | some x, some y => relation x y
  | _, _ => false

/-- Equality of values: the two zeros are equal, and what is no number equals nothing. -/
instance : BEq Number := ⟨related (· == ·)⟩

/-- Strict order of values. -/
def lt : Number → Number → Bool := related (fun x y => decide (x < y))

/-- Order of values. -/
def le : Number → Number → Bool := related (fun x y => decide (x ≤ y))

/-- Neither infinite nor no number. -/
def isFinite : Number → Bool
  | finite .. => true
  | _ => false

/-- Zero of either sign. -/
def isZero : Number → Bool
  | finite _ units _ => units == 0
  | _ => false

/-- Finite and without a fraction. -/
def isIntegral : Number → Bool
  | finite _ units _ => units % unitsPerOne == 0
  | _ => false

/-- The integer part of a finite number. -/
def truncate? : Number → Option Int
  | finite negative units _ => some (signed negative (units / unitsPerOne))
  | _ => none

/-- The integer part as a signed 64-bit word, stopping at the ends of the range. -/
def toWord? (n : Number) : Option Int64 := n.truncate?.map nearestWord

/-- The number of a signed 64-bit word. -/
def ofWord (word : Int64) : Number := ofInt word.toInt

/-- The largest array position: the last unsigned 64-bit word. -/
def lastIndex : Nat := wordCount - 1

/-- The integer part as an array position, if the number is not below zero. -/
def toIndex? : Number → Option Nat
  | finite negative units _ =>
    if 0 ≤ signed negative units then some (min (units / unitsPerOne) lastIndex) else none
  | _ => none

/-- The value of an integral number. -/
def toInt? (n : Number) : Option Int := if n.isIntegral then n.truncate? else none

/-! ### Small facts -/

theorem nan_beq (n : Number) : (nan == n) = false := rfl

theorem beq_nan (n : Number) : (n == nan) = false := by
  cases n <;> rfl

theorem beq_self {n : Number} (h : n.isFinite) : (n == n) = true := by
  cases n with
  | finite negative units hu => simp [BEq.beq, related, extent]
  | _ => simp [isFinite] at h

end Number

end Reshape
