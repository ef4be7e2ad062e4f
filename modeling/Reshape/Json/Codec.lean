import Reshape.Json.Basic

/-!
# Documents as texts

Reading and writing JSON texts is the work of a codec that is not part of this library. What goes
to and from a codec is a datum, which is close to a text: integers are apart from other numbers,
and an object may hold a key twice. This module is about the way between documents and data.

* `Datum` and `Codec`;
* `Json.toDatum`, what is given to a codec for a document;
* `Datum.toJson?`, the document of what a codec has read; a repeated key keeps its first place and
  takes its last value;
* `Json.ofText?`, `Json.toJsonText?` and `Json.toPrettyText?`, for any codec.
-/

namespace Reshape

/-- What a codec reads from a text or writes as one. -/
inductive Datum where
  | null
  | bool (value : Bool)
  /-- A number that is given as an integer. -/
  | integer (value : Int)
  | real (value : Number)
  | text (value : String)
  | array (items : List Datum)
  /-- The fields in the order of the text. -/
  | object (fields : List (String × Datum))
  /-- What can be passed over in a text but not be read. -/
  | unreadable

/-- A reader of JSON texts and the two writers, on one line and on many. -/
structure Codec where
  read : String → Option Datum
  write : Datum → Option String
  writePretty : Datum → Option String

namespace Datum

/-- What is written for a number: nothing for one that is not finite, a signed 64-bit word for an
integer from -2⁶³ to 2⁶³, and the number itself otherwise. -/
def ofNumber (n : Number) : Datum :=
  if n.isFinite then
    match n.toInt?.filter fun v => leastWord ≤ v ∧ v ≤ greatestWord + 1 with
    | some v => integer (nearestWord v).toInt
    | none => real n
  else null

mutual
/-- What is written for a document. -/
def ofJson : Json → Datum
  | .null => null
  | .bool b => bool b
  | .number n => ofNumber n
  | .text s => text s
  | .array items => array (ofItems items)
  | .object fields => object (ofFields fields)

/-- What is written for the items of an array. -/
def ofItems : List Json → List Datum
  | [] => []
  | item :: rest => ofJson item :: ofItems rest

/-- What is written for the fields of an object. -/
def ofFields : List (String × Json) → List (String × Datum)
  | [] => []
  | (key, value) :: rest => (key, ofJson value) :: ofFields rest
end

mutual
/-- The document that has been read. An integer gives the number nearest to it. -/
def toJson? : Datum → Option Json
  | null => some .null
  | bool b => some (.bool b)
  | integer v => some (Json.ofInt v)
  | real n => some (.number n)
  | text s => some (.text s)
  | array items => (toItems? items).map Json.array
  | object fields => (toFields? fields).map fun entries => Json.object (Entries.ofList entries)
  | unreadable => none

/-- The documents of the items of an array. -/
def toItems? : List Datum → Option (List Json)
  | [] => some []
  | item :: rest => do
    let value ← toJson? item
    let values ← toItems? rest
    return value :: values

/-- The fields of an object as they have been read. -/
def toFields? : List (String × Datum) → Option (List (String × Json))
  | [] => some []
  | (key, item) :: rest => do
    let value ← toJson? item
    let entries ← toFields? rest
    return (key, value) :: entries
end

end Datum

namespace Json

/-- What is written for a document. -/
def toDatum (document : Json) : Datum := Datum.ofJson document

/-- The document that a text denotes. -/
def ofText? (codec : Codec) (text : String) : Option Json := (codec.read text).bind Datum.toJson?

/-- The text of a document for exchange, on one line. -/
def toJsonText? (codec : Codec) (document : Json) : Option String := codec.write document.toDatum

/-- The text of a document for exchange, on many lines. -/
def toPrettyText? (codec : Codec) (document : Json) : Option String :=
  codec.writePretty document.toDatum

end Json

end Reshape
