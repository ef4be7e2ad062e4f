import Reshape.Number.Decimal

/-!
# The shortest decimal that reads back

Among the decimals that a number is nearest to, the ones with the fewest digits, and of those the
one nearest to the number. Whether a decimal reads back is decided by reading it.

* `leadingPlace`, where the decimal expansion of a magnitude starts;
* `Tie`, which way to go where two shortest decimals are equally near;
* `shortest`, by trying one digit, two digits, and so on: on each decimal grid only the two
  neighbours of the magnitude can be nearest, and seventeen digits always suffice.
-/

namespace Reshape.Number

/-- Which of two equally near decimals is taken. -/
inductive Tie where
  /-- The larger one. -/
  | up
  /-- The one whose last digit is even. -/
  | toEven
  deriving DecidableEq

/-- The `k` with `10 ^ (k - 1) ≤ x < 10 ^ k` for a positive magnitude `x`. The least magnitude is
above `10 ^ -324`, so that its product with `10 ^ 324` has the digits to count. -/
def leadingPlace (units : Nat) : Int :=
  ((Nat.toDigits 10 (units * Nat.pow 10 324 / unitsPerOne)).length : Int) - 324

/-- Whether a decimal reads as the given magnitude. -/
def readsAs (units : Nat) (d : Decimal) : Bool :=
  match ofDecimal false d with
  | finite _ read _ => read == units
  | _ => false

/-- The magnitude in multiples of `10 ^ place`, as a quotient. -/
def inPlaces (units : Nat) (place : Int) : Nat × Nat :=
  (units * Nat.pow 10 (-place).toNat, unitsPerOne * Nat.pow 10 place.toNat)

/-- Of the two neighbours of a magnitude among the multiples of `10 ^ place`, the one to write:
the nearer of those that read back. -/
def neighbour? (tie : Tie) (units : Nat) (place : Int) : Option Decimal :=
  let (num, den) := inPlaces units place
  let low := num / den
  let rest := num % den
  let below : Decimal := ⟨low, place⟩
  let above : Decimal := ⟨low + 1, place⟩
  let nearerBelow := 2 * rest < den || (2 * rest == den && tie == .toEven && low % 2 == 0)
  match readsAs units below, readsAs units above with
  | true, true => some (if nearerBelow then below else above)
  | true, false => some below
  | false, true => some above
  | false, false => none

/-- The number of digits that tells every two numbers apart. -/
def sufficientDigits : Nat := 17

/-- The magnitude itself as a decimal: a unit is `5 ^ 1074 · 10 ^ -1074`. -/
def exactDecimal (units : Nat) : Decimal := ⟨units * Nat.pow 5 1074, -1074⟩

/-- The shortest decimal for a positive magnitude, starting from a number of digits. -/
def shortestFrom (tie : Tie) (units : Nat) (top : Int) : List Nat → Decimal
  | [] => exactDecimal units
  | count :: more =>
    match neighbour? tie units (top - count) with
    | some d => d
    | none => shortestFrom tie units top more

/-- The shortest decimal for a positive magnitude. -/
def shortest (tie : Tie) (units : Nat) : Decimal :=
  shortestFrom tie units (leadingPlace units) (List.range' 1 sufficientDigits)

end Reshape.Number
