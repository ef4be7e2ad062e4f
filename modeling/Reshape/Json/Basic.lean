import Reshape.Entries
import Reshape.Number.Basic

/-!
# Documents

A document is a JSON value: a scalar, an array, or an object that remembers the order of its keys.

* `Json` and `Json.Kind`, the six kinds of value and their names;
* the views of a value as a truth value, a text, a word, an array position;
* `Json.get?`, `Json.getIndex?`, `Json.length?`, `Json.truthiness`;
* the edits of a container: `push?`, `pop?`, `insert?`, each `none` on a value of another kind;
* `Json.WellFormed`: no object holds a key twice, at any depth.
-/

namespace Reshape

/-- A JSON value. -/
inductive Json where
  | null
  | bool (value : Bool)
  | number (value : Number)
  | text (value : String)
  | array (items : List Json)
  | object (fields : List (String × Json))

namespace Json

/-- The kinds of value. -/
inductive Kind where
  | null
  | boolean
  | number
  | text
  | array
  | object
  deriving DecidableEq

/-- The name of a kind. -/
def Kind.name : Kind → String
  | .null => "null"
  | .boolean => "boolean"
  | .number => "number"
  | .text => "text"
  | .array => "array"
  | .object => "object"

/-- The kind of a value. -/
def kind : Json → Kind
  | .null => .null
  | .bool _ => .boolean
  | .number _ => .number
  | .text _ => .text
  | .array _ => .array
  | .object _ => .object

/-- The array without items. -/
def emptyArray : Json := .array []

/-- The object without fields. -/
def emptyObject : Json := .object []

/-- The number nearest to an integer, as a value. -/
def ofInt (n : Int) : Json := .number (Number.ofInt n)

/-- The number nearest to a count, as a value. -/
def ofNat (n : Nat) : Json := .number (Number.ofNat n)

/-- The number of a word, as a value. -/
def ofWord (word : Int64) : Json := .number (Number.ofWord word)

/-! ### Views -/

/-- A boolean's value. -/
def toBool? : Json → Option Bool
  | .bool b => some b
  | _ => none

/-- A number's value. -/
def toNumber? : Json → Option Number
  | .number n => some n
  | _ => none

/-- A text's value. -/
def toText? : Json → Option String
  | .text s => some s
  | _ => none

/-- An array's items. -/
def toItems? : Json → Option (List Json)
  | .array items => some items
  | _ => none

/-- An object's fields. -/
def toFields? : Json → Option (Entries String Json)
  | .object fields => some fields
  | _ => none

/-- The integer part of a finite number as a 64-bit word. -/
def toWord? (v : Json) : Option Int64 := v.toNumber?.bind Number.toWord?

/-- A finite number that is not negative, as an array position. -/
def toIndex? (v : Json) : Option Nat := v.toNumber?.bind Number.toIndex?

/-- The value of a field of an object. -/
def get? (key : String) : Json → Option Json
  | .object fields => Entries.get? key fields
  | _ => none

/-- An item of an array. -/
def getIndex? (index : Nat) : Json → Option Json
  | .array items => items[index]?
  | _ => none

/-- The number of items of an array or of keys of an object. -/
def length? : Json → Option Nat
  | .array items => some items.length
  | .object fields => some fields.length
  | _ => none

/-- Whether a value counts as true: a boolean as itself, a number unless it is zero, and null not.
Texts and containers count as neither true nor false. -/
def truthiness : Json → Option Bool
  | .null => some false
  | .bool b => some b
  | .number n => some !n.isZero
  | _ => none

/-! ### Edits -/

/-- An array with one more item at its end. -/
def push? (item : Json) : Json → Option Json
  | .array items => some (.array (items ++ [item]))
  | _ => none

/-- The last item of an array, if there is one, and the array without it. -/
def pop? : Json → Option (Option Json × Json)
  | .array items => some (items.getLast?, .array items.dropLast)
  | _ => none

/-- The value that a key of an object had, if any, and the object with the key set. -/
def insert? (key : String) (value : Json) : Json → Option (Option Json × Json)
  | .object fields => some (Entries.get? key fields, .object (Entries.insert key value fields))
  | _ => none

/-! ### Distinct keys -/

mutual
/-- No object holds a key twice, at any depth. -/
def WellFormed : Json → Prop
  | .array items => WellFormedItems items
  | .object fields => Entries.WellFormed fields ∧ WellFormedFields fields
  | _ => True

/-- Each of the items is well formed. -/
def WellFormedItems : List Json → Prop
  | [] => True
  | item :: rest => item.WellFormed ∧ WellFormedItems rest

/-- The value of each of the fields is well formed. -/
def WellFormedFields : List (String × Json) → Prop
  | [] => True
  | (_, value) :: rest => value.WellFormed ∧ WellFormedFields rest
end

end Json

end Reshape
