import Reshape.Number.Shortest
import Reshape.Text.Integer

/-!
# Numbers as text

How documents write their numbers for reading: never with an exponent, and without a point behind
an integer. The digits are the shortest ones that read back.

* `Figures`, the significant digits of a decimal and the place of its point;
* `Figures.positional`, the digits around the point;
* `plainText`.
-/

namespace Reshape.Number

/-- Significant digits `d₁d₂…dₙ` and a place `k`, for the value `0.d₁d₂…dₙ · 10 ^ k`. -/
structure Figures where
  digits : List Char
  point : Int

/-- The figures of a decimal; zeros at the end are not significant. -/
def Figures.ofDecimal (d : Decimal) : Figures :=
  let all := Nat.toDigits 10 d.digits
  ⟨(all.reverse.dropWhile (· == '0')).reverse, all.length + d.exponent⟩

/-- Digits around a point, without an exponent. `whole` is what follows the digits of an
integer. -/
def Figures.positional (whole : List Char) (f : Figures) : List Char :=
  if f.point ≤ 0 then '0' :: '.' :: (List.replicate (-f.point).toNat '0' ++ f.digits)
  else
    let place := f.point.toNat
    if f.digits.length ≤ place then
      f.digits ++ List.replicate (place - f.digits.length) '0' ++ whole
    else f.digits.take place ++ '.' :: f.digits.drop place

/-- The shortest figures of a magnitude. -/
def figures (tie : Tie) (units : Nat) : Figures :=
  if units = 0 then ⟨['0'], 1⟩ else Figures.ofDecimal (shortest tie units)

/-- A minus sign before the text of a negative value. -/
def withSign (negative : Bool) (text : List Char) : List Char :=
  if negative then '-' :: text else text

/-- Integers with a magnitude below this one are written as integers for reading. -/
def plainIntegerBound : Int := 1000000000000000

/-- The text for reading: `null` for what is not finite, an integer below `10 ^ 15` as such, and
otherwise digits around a point, where a point is needed. -/
def plainText (n : Number) : List Char :=
  match n with
  | finite negative units _ =>
    let value := n.toInt?.filter fun v => v.natAbs < plainIntegerBound
    match value with
    | some v => Text.integerText v
    | none => withSign negative ((figures .up units).positional [])
  | _ => ['n', 'u', 'l', 'l']

example : (ofDecimal false ⟨1, -7⟩).plainText = "0.0000001".toList := by decide +kernel

example : (ofInt 9223372036854775808).plainText = "9223372036854776000".toList := by decide +kernel

end Reshape.Number
