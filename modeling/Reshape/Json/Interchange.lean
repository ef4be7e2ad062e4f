import Reshape.Json.Basic

/-!
# Documents as values of another library

Documents are exchanged as values of a library of JSON values that is not part of this one. Of that
library nothing is known here but what goes in and out of it: a value is one of six kinds and can be
looked into, numbers are made of words and of doubles, and a map is made of fields and can be
listed.

* `Layer`, what a value is with its parts left as they are;
* `Interchange`, the types and functions of a library;
* `Interchange.ofJson`, a document as a value, and `Interchange.toJson`, the way back.
-/

namespace Reshape

/-- What a value is: a scalar, or a container of further values. -/
inductive Layer (Value Num Map : Type) where
  | null
  | bool (value : Bool)
  | number (value : Num)
  | text (value : String)
  | array (items : List Value)
  | object (fields : Map)

/-- A library of JSON values. -/
structure Interchange where
  Value : Type
  Num : Type
  Map : Type
  /-- The value of a layer. -/
  wrap : Layer Value Num Map → Value
  /-- The layer of a value. -/
  view : Value → Layer Value Num Map
  view_wrap : ∀ layer, view (wrap layer) = layer
  /-- The number of a signed 64-bit word. -/
  ofWord : Int64 → Num
  /-- The number of a double, if there is one. -/
  ofDouble? : Number → Option Num
  /-- The double nearest to a number, if there is one. -/
  toDouble? : Num → Option Number
  /-- Equality of numbers. -/
  numberEqual : Num → Num → Bool
  /-- The map of a list of fields. -/
  collect : List (String × Value) → Map
  /-- The fields of a map in its order. -/
  entries : Map → List (String × Value)
  /-- Equality of values. -/
  equal : Value → Value → Bool
  /-- Values are finite: their items and fields are of a lower rank. -/
  rank : Value → Nat
  rank_item : ∀ {v item items}, view v = .array items → item ∈ items → rank item < rank v
  rank_field : ∀ {v fields field}, view v = .object fields → field ∈ entries fields →
    rank field.2 < rank v

namespace Interchange

variable (lib : Interchange)

/-- Integers with a magnitude below this one are exchanged as words. -/
def wordBound : Int := 9000000000000000

/-- The value of a number: null if it is not finite, and else an integer below the bound as a word
and any other number as a double. -/
def ofNumber (n : Number) : lib.Value :=
  if n.isFinite then
    match n.toInt?.filter fun v => v.natAbs < wordBound with
    | some v => lib.wrap (.number (lib.ofWord (nearestWord v)))
    | none =>
      match lib.ofDouble? n with
      | some double => lib.wrap (.number double)
      | none => lib.wrap .null
  else lib.wrap .null

mutual
/-- A document as a value. -/
def ofJson : Json → lib.Value
  | .null => lib.wrap .null
  | .bool b => lib.wrap (.bool b)
  | .number n => lib.ofNumber n
  | .text s => lib.wrap (.text s)
  | .array items => lib.wrap (.array (ofItems items))
  | .object fields => lib.wrap (.object (lib.collect (ofFields fields)))

/-- The items of an array as values. -/
def ofItems : List Json → List lib.Value
  | [] => []
  | item :: rest => ofJson item :: ofItems rest

/-- The fields of an object as fields of values. -/
def ofFields : List (String × Json) → List (String × lib.Value)
  | [] => []
  | (key, value) :: rest => (key, ofJson value) :: ofFields rest
end

/-- The document of a value. A number that is no double gives zero. -/
def toJson (v : lib.Value) : Json :=
  match _ : lib.view v with
  | .null => .null
  | .bool b => .bool b
  | .number n => .number ((lib.toDouble? n).getD (Number.ofInt 0))
  | .text s => .text s
  | .array items => .array (items.attach.map fun item => toJson item.val)
  | .object fields =>
    .object (Entries.ofList ((lib.entries fields).attach.map fun field =>
      (field.val.1, toJson field.val.2)))
termination_by lib.rank v
decreasing_by
  · exact lib.rank_item ‹_› item.property
  · exact lib.rank_field ‹_› field.property

end Interchange

end Reshape
