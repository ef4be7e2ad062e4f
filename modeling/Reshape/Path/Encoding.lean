import Reshape.Json.Codec
import Reshape.Path.Component

/-!
# Components as data

What is written for a component: the name of its variant, and behind it what the variant holds.

* `Component.toDatum`, and `Component.toJsonText?`, for any codec.
-/

namespace Reshape.Component

/-- A word as a datum. -/
def wordDatum (word : Int64) : Datum := .integer word.toInt

/-- A variant with what it holds. -/
def variant (name : String) (content : Datum) : Datum := .object [(name, content)]

/-- What is written for a component. -/
def toDatum : Component → Datum
  | field name => variant "Field" (.text name)
  | arrayIndex name index =>
    variant "ArrayIndex" (.object [("field", .text name), ("index", wordDatum index)])
  | arrayAll name => variant "ArrayAll" (.text name)
  | arrayAllOffset name offset =>
    variant "ArrayAllOffset" (.object [("field", .text name), ("offset_path", .text offset)])
  | arrayRange name first last =>
    variant "ArrayRange"
      (.object [("field", .text name), ("start", wordDatum first), ("end", wordDatum last)])
  | arrayValues name indices =>
    variant "ArrayValues"
      (.object [("field", .text name), ("indices", .array (indices.map wordDatum))])
  | wildcard => .text "Wildcard"
  | recursiveDescent => .text "RecursiveDescent"

/-- The text of a component for exchange. -/
def toJsonText? (codec : Codec) (component : Component) : Option String :=
  codec.write component.toDatum

end Reshape.Component
