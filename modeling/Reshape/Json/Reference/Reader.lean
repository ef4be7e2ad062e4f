import Reshape.Json.Reference.Tree

/-!
# The reference reader

The second stage of reading a JSON text: what the leaves of its tree denote. A text that is not
well formed cannot be read at all, while the parts of a text that have no value can still be passed
over: numbers that are too large, surrogates alone, and containers that nest too deep.

A numeral with a point or an exponent is read in two roundings. Its digits are taken into 64 bits as
long as they fit, and the number nearest to them is multiplied or divided by the number nearest to
a power of ten.

* `decodePieces?`, which joins surrogate pairs and refuses a surrogate alone;
* `Numeral.toInteger?`, `Numeral.toNumber?` and `Numeral.toDatum`;
* `Tree.toDatum`, and `readDatum`, both stages.
-/

namespace Reshape

namespace Number

/-- The greatest power of ten that is a number. -/
def greatestTen : Nat := 308

/-- The units in the number nearest to a power of ten. -/
def tenUnits (exponent : Nat) : Nat :=
  match ofNat (Nat.pow 10 exponent) with
  | finite _ units _ => units
  | _ => overflowUnits

/-- A number times a power of ten. -/
def timesTen (exponent : Nat) : Number → Number
  | finite negative units _ => ofRatio negative (units * tenUnits exponent) unitsPerOne
  | n => n

/-- A number over a power of ten. -/
def overTen (exponent : Nat) : Number → Number
  | finite negative units _ => ofRatio negative (units * unitsPerOne) (tenUnits exponent)
  | n => n

/-- A number with its point moved, unless the result is too large. Two divisions take a number of
64 bits to zero. -/
def scaleTen? (n : Number) (exponent : Int) : Option Number :=
  if (greatestTen : Int) < exponent then
    if n.isZero then some n else none
  else if 0 ≤ exponent then
    let scaled := n.timesTen exponent.toNat
    if scaled.isFinite then some scaled else none
  else if -(greatestTen : Int) ≤ exponent then some (n.overTen (-exponent).toNat)
  else some ((n.overTen greatestTen).overTen (min greatestTen (-exponent - greatestTen).toNat))

end Number

namespace Json

open Grammar

/-! ### Quoted texts -/

/-- The characters of a quoted text. -/
def decodePieces? : List Piece → Option (List Char)
  | [] => some []
  | .plain c :: rest => (decodePieces? rest).map (c :: ·)
  | .unit high :: .unit low :: rest =>
    if IsHigh high then
      if IsLow low then (decodePieces? rest).map (joined high low :: ·) else none
    else if IsLow high then none
    else (decodePieces? (.unit low :: rest)).map (Char.ofNat high :: ·)
  | .unit code :: rest =>
    if IsHigh code ∨ IsLow code then none
    else (decodePieces? rest).map (Char.ofNat code :: ·)

/-- The text of its pieces. -/
def decodeText? (pieces : List Piece) : Option String := (decodePieces? pieces).map String.ofList

/-! ### Numerals -/

/-- The integer of a numeral without point and exponent, if it has 64 bits. A minus sign before a
zero is no integer. -/
def Numeral.toInteger? (numeral : Numeral) : Option Int :=
  if numeral.fraction = none ∧ numeral.exponent = none then
    let value := Nat.ofDigitChars 10 numeral.whole 0
    if numeral.negative then
      if 0 < value ∧ leastWord ≤ -value then some (-value) else none
    else if value < wordCount then some value else none
  else none

/-- Digits put behind a number of 64 bits while there is room, and the digits that are left. -/
def takeDigits (value : Nat) : List Char → Nat × List Char
  | [] => (value, [])
  | c :: rest =>
    let next := value * 10 + (c.toNat - '0'.toNat)
    if next < wordCount then takeDigits next rest else (value, c :: rest)

/-- The number of a numeral, unless that is too large. A digit left out before the point counts as a
zero, one behind it as nothing. -/
def Numeral.toNumber? (numeral : Numeral) : Option Number :=
  let fraction := numeral.fraction.getD []
  let (whole, dropped) := takeDigits 0 numeral.whole
  let (digits, unused) := takeDigits whole fraction
  let written : Int := match numeral.exponent with
    | none => 0
    | some (negative, digits) => Number.signed negative (Nat.ofDigitChars 10 digits 0)
  let behind : Int := fraction.length - unused.length
  (Number.ofRatio numeral.negative (digits * unitsPerOne) 1).scaleTen?
    (written + dropped.length - behind)

/-- What a numeral denotes. -/
def Numeral.toDatum (numeral : Numeral) : Datum :=
  match numeral.toInteger? with
  | some v => .integer v
  | none => (numeral.toNumber?.map Datum.real).getD .unreadable

/-! ### Trees -/

namespace Tree

mutual
/-- What a tree denotes whose containers may nest `depth` deep. -/
def toDatum (depth : Nat) : Tree → Datum
  | .null => .null
  | .bool b => .bool b
  | .number numeral => numeral.toDatum
  | .text pieces => ((decodeText? pieces).map Datum.text).getD .unreadable
  | .array items =>
    match depth with
    | 0 => .unreadable
    | depth + 1 => .array (itemData depth items)
  | .object fields =>
    match depth with
    | 0 => .unreadable
    | depth + 1 => ((fieldData? depth fields).map Datum.object).getD .unreadable

/-- What the items of an array denote. -/
def itemData (depth : Nat) : List Tree → List Datum
  | [] => []
  | item :: rest => toDatum depth item :: itemData depth rest

/-- What the fields of an object denote, if the keys can be read. -/
def fieldData? (depth : Nat) : List (List Piece × Tree) → Option (List (String × Datum))
  | [] => some []
  | (key, tree) :: rest => do
    let key ← decodeText? key
    let fields ← fieldData? depth rest
    return (key, toDatum depth tree) :: fields
end

end Tree

/-- What a text denotes. -/
def readDatum (text : String) : Option Datum :=
  (Tree.ofText? text).map (Tree.toDatum deepestNesting)

end Json

end Reshape
