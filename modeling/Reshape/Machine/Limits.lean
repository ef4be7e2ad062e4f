import Reshape.Json.Codec

/-!
# Ceilings

A machine stops a program that runs too long or fills an array too far.

* `Limits`, three ceilings with defaults;
* `Limits.ofDatum?`, the ceilings of a datum: an object, in which other fields are passed over and
  missing ones take their defaults, or a list of the three in order, which may be cut short;
* `Limits.toDatum`, the ceilings as an object;
* `Limits.ofText?` and `Limits.toJsonText?`, for any codec.
-/

namespace Reshape

/-- The ceilings of a machine. -/
structure Limits where
  /-- How often one loop may run its body. -/
  loopIterations : Nat := 10000
  /-- How many instructions may be completed. -/
  operations : Nat := 100000
  /-- How many items one move may append to reach a position. -/
  arrayPadding : Nat := 10000
  deriving DecidableEq

namespace Limits

/-- The names of the ceilings in JSON. -/
inductive Field where
  | loopIterations
  | operations
  | arrayPadding
  deriving DecidableEq

/-- The name of a ceiling. -/
def Field.name : Field → String
  | .loopIterations => "max_loop_iterations"
  | .operations => "max_operations"
  | .arrayPadding => "max_array_padding"

/-- The ceilings in their order. -/
def Field.all : List Field := [.loopIterations, .operations, .arrayPadding]

/-- The ceiling of a name. -/
def Field.ofName? (name : String) : Option Field :=
  Field.all.find? fun field => field.name == name

/-- One of the ceilings. -/
def get (limits : Limits) : Field → Nat
  | .loopIterations => limits.loopIterations
  | .operations => limits.operations
  | .arrayPadding => limits.arrayPadding

/-- Set one of the ceilings. -/
def set (limits : Limits) (value : Nat) : Field → Limits
  | .loopIterations => { limits with loopIterations := value }
  | .operations => { limits with operations := value }
  | .arrayPadding => { limits with arrayPadding := value }

/-- The value of a ceiling: an integer that is an unsigned 64-bit word. -/
def ceiling? : Datum → Option Nat
  | .integer v => if 0 ≤ v ∧ v < wordCount then some v.toNat else none
  | _ => none

/-- Set the ceilings that an object names. A ceiling may be named once; `seen` holds the ones that
have been. -/
def ofFields? (limits : Limits) (seen : List Field) : List (String × Datum) → Option Limits
  | [] => some limits
  | (name, datum) :: rest =>
    match Field.ofName? name with
    | none => ofFields? limits seen rest
    | some field =>
      if seen.contains field then none
      else do ofFields? (limits.set (← ceiling? datum) field) (field :: seen) rest

/-- Set the ceilings in order from a list. -/
def ofItems? (limits : Limits) : List Field → List Datum → Option Limits
  | _, [] => some limits
  | [], _ :: _ => none
  | field :: fields, datum :: rest => do
    ofItems? (limits.set (← ceiling? datum) field) fields rest

/-- The ceilings that have been read. -/
def ofDatum? : Datum → Option Limits
  | .object fields => ofFields? {} [] fields
  | .array items => ofItems? {} Field.all items
  | _ => none

/-- What is written for ceilings. -/
def toDatum (limits : Limits) : Datum :=
  .object (Field.all.map fun field => (field.name, .integer (limits.get field)))

/-- The ceilings that a text denotes. -/
def ofText? (codec : Codec) (text : String) : Option Limits := (codec.read text).bind ofDatum?

/-- The text of ceilings for exchange. -/
def toJsonText? (codec : Codec) (limits : Limits) : Option String := codec.write limits.toDatum

end Limits

end Reshape
