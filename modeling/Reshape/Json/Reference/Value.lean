import Reshape.Json.Codec
import Reshape.Json.Interchange

/-!
# The reference values

The reference library of JSON values runs where a library of values is needed. Its integers are
apart from its other numbers, and its maps are in the order of their keys.

* `PlainNumber` and `PlainValue`, with `PlainNumber.equal` and `PlainValue.equal`;
* `PlainValue.toDatum`, what is given to a codec for a value;
* `Interchange.reference`.
-/

namespace Reshape

/-- An integer, or any other number that is finite. -/
inductive PlainNumber where
  | integer (value : Int)
  | real (value : Number)

/-- A value whose fields are in the order of their keys. -/
inductive PlainValue where
  | null
  | bool (value : Bool)
  | number (value : PlainNumber)
  | text (value : String)
  | array (items : List PlainValue)
  | object (fields : List (String × PlainValue))

namespace PlainNumber

/-- The number of a double that is finite. -/
def ofDouble? (n : Number) : Option PlainNumber := if n.isFinite then some (real n) else none

/-- The double nearest to a number. -/
def toDouble : PlainNumber → Number
  | integer v => .ofInt v
  | real n => n

/-- Equality of numbers: an integer equals no other number. -/
def equal : PlainNumber → PlainNumber → Bool
  | integer a, integer b => a == b
  | real a, real b => a == b
  | _, _ => false

end PlainNumber

namespace PlainValue

mutual
/-- Equality of values. Fields are compared in their order. -/
def equal : PlainValue → PlainValue → Bool
  | null, null => true
  | bool a, bool b => a == b
  | number a, number b => a.equal b
  | text a, text b => a == b
  | array a, array b => equalItems a b
  | object a, object b => equalFields a b
  | _, _ => false

/-- Equality item by item. -/
def equalItems : List PlainValue → List PlainValue → Bool
  | [], [] => true
  | a :: as, b :: bs => equal a b && equalItems as bs
  | _, _ => false

/-- Equality field by field: of the keys and of the values. -/
def equalFields : List (String × PlainValue) → List (String × PlainValue) → Bool
  | [], [] => true
  | (key, a) :: as, (other, b) :: bs => key == other && (equal a b && equalFields as bs)
  | _, _ => false
end

mutual
/-- The number of values in a value. -/
def count : PlainValue → Nat
  | array items => itemsCount items + 1
  | object fields => fieldsCount fields + 1
  | _ => 1

/-- The number of values in items. -/
def itemsCount : List PlainValue → Nat
  | [] => 0
  | item :: rest => count item + itemsCount rest

/-- The number of values in fields. -/
def fieldsCount : List (String × PlainValue) → Nat
  | [] => 0
  | (_, value) :: rest => count value + fieldsCount rest
end

theorem count_le_itemsCount {item : PlainValue} {items : List PlainValue} (h : item ∈ items) :
    item.count ≤ itemsCount items := by
  induction items with
  | nil => cases h
  | cons other rest ih =>
    rw [itemsCount]
    rcases List.mem_cons.1 h with rfl | h
    · exact Nat.le_add_right ..
    · exact Nat.le_trans (ih h) (Nat.le_add_left ..)

theorem count_le_fieldsCount {field : String × PlainValue} {fields : List (String × PlainValue)}
    (h : field ∈ fields) : field.2.count ≤ fieldsCount fields := by
  induction fields with
  | nil => cases h
  | cons other rest ih =>
    rw [fieldsCount]
    rcases List.mem_cons.1 h with rfl | h
    · exact Nat.le_add_right ..
    · exact Nat.le_trans (ih h) (Nat.le_add_left ..)

/-- Fields in the order of their keys, by code points; of a repeated key, the last value. -/
def sortFields (fields : List (String × PlainValue)) : List (String × PlainValue) :=
  (Entries.ofList fields).mergeSort fun field other => decide (field.1 ≤ other.1)

/-- The value of a layer. -/
def wrap : Layer PlainValue PlainNumber (List (String × PlainValue)) → PlainValue
  | .null => null
  | .bool b => bool b
  | .number n => number n
  | .text s => text s
  | .array items => array items
  | .object fields => object fields

/-- The layer of a value. -/
def view : PlainValue → Layer PlainValue PlainNumber (List (String × PlainValue))
  | null => .null
  | bool b => .bool b
  | number n => .number n
  | text s => .text s
  | array items => .array items
  | object fields => .object fields

mutual
/-- What is written for a value. -/
def toDatum : PlainValue → Datum
  | null => .null
  | bool b => .bool b
  | number (.integer v) => .integer v
  | number (.real n) => .real n
  | text s => .text s
  | array items => .array (itemData items)
  | object fields => .object (fieldData fields)

/-- What is written for items. -/
def itemData : List PlainValue → List Datum
  | [] => []
  | item :: rest => toDatum item :: itemData rest

/-- What is written for fields. -/
def fieldData : List (String × PlainValue) → List (String × Datum)
  | [] => []
  | (key, value) :: rest => (key, toDatum value) :: fieldData rest
end

end PlainValue

/-- The reference library of values. -/
def Interchange.reference : Interchange where
  Value := PlainValue
  Num := PlainNumber
  Map := List (String × PlainValue)
  wrap := PlainValue.wrap
  view := PlainValue.view
  view_wrap layer := by cases layer <;> rfl
  ofWord word := .integer word.toInt
  ofDouble? := PlainNumber.ofDouble?
  toDouble? n := some n.toDouble
  numberEqual := PlainNumber.equal
  collect := PlainValue.sortFields
  entries fields := fields
  equal := PlainValue.equal
  rank := PlainValue.count
  rank_item {v item items} h hmem := by
    cases v with
    | array items =>
      cases h
      exact Nat.lt_succ_of_le (PlainValue.count_le_itemsCount hmem)
    | _ => cases h
  rank_field {v fields field} h hmem := by
    cases v with
    | object fields =>
      cases h
      exact Nat.lt_succ_of_le (PlainValue.count_le_fieldsCount hmem)
    | _ => cases h

end Reshape
