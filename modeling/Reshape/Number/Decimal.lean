import Reshape.Number.Basic

/-!
# Decimal numerals

A decimal is a whole number of powers of ten. Reading it gives the nearest number.

* `Decimal`, digits times a power of ten;
* `Number.ofDecimal`, correctly rounded for every decimal; exponents far outside the range are
  decided without computing the power.
-/

namespace Reshape

/-- The value `digits · 10 ^ exponent`. -/
structure Decimal where
  digits : Nat
  exponent : Int
  deriving DecidableEq

/-- Powers of ten beyond this one are too large, and below its inverse too small, for a number. -/
def Decimal.reach : Nat := 400

/-- The number nearest to a decimal. -/
def Number.ofDecimal (negative : Bool) (d : Decimal) : Number :=
  if d.digits = 0 then ofRatio negative 0 1
  else if (Decimal.reach : Int) < d.exponent then infinite negative
  else if d.exponent < -((Decimal.reach + d.digits.log2 : Nat) : Int) then ofRatio negative 0 1
  else if 0 ≤ d.exponent then
    ofRatio negative (d.digits * Nat.pow 10 d.exponent.toNat * unitsPerOne) 1
  else ofRatio negative (d.digits * unitsPerOne) (Nat.pow 10 (-d.exponent).toNat)

end Reshape
