import Reshape.Text.Integer

/-!
# Path expressions

A path expression names the nodes of a document from the root down. It is a list of components,
each of which goes from a node to some of its descendants.

* `Component`, with `isPattern`, `isArrayPattern`, `field?`;
* `Component.text`, and `Path.render`, the expression of a list of components.
-/

namespace Reshape

/-- One component of a path expression. The name in front of brackets is the field that holds the
array; an empty name stands for the node itself. -/
inductive Component where
  /-- The field `name` of an object. -/
  | field (name : String)
  /-- One item of an array. -/
  | arrayIndex (field : String) (index : Int64)
  /-- Every item of an array. -/
  | arrayAll (field : String)
  /-- Every item of an array, past as many items as there are at another path. -/
  | arrayAllOffset (field : String) (offset : String)
  /-- The items of an array from one position to another. -/
  | arrayRange (field : String) (first last : Int64)
  /-- The items of an array at some positions. -/
  | arrayValues (field : String) (indices : List Int64)
  /-- Every child. -/
  | wildcard
  /-- Every descendant. -/
  | recursiveDescent
  deriving DecidableEq

namespace Component

/-- Whether a component can name more than one node. -/
def isPattern : Component → Bool
  | field _ => false
  | arrayIndex .. => false
  | _ => true

/-- Whether a component names several items of an array. -/
def isArrayPattern : Component → Bool
  | arrayAll _ => true
  | arrayAllOffset .. => true
  | arrayRange .. => true
  | arrayValues .. => true
  | _ => false

/-- The field that a component enters, if it has one. -/
def field? : Component → Option String
  | field name => some name
  | arrayIndex name _ => some name
  | arrayAll name => some name
  | arrayAllOffset name _ => some name
  | arrayRange name _ _ => some name
  | arrayValues name _ => some name
  | wildcard => none
  | recursiveDescent => none

/-- Decimal words between commas. -/
def indexList : List Int64 → List Char
  | [] => []
  | [index] => Text.wordText index
  | index :: rest => Text.wordText index ++ ',' :: indexList rest

/-- The characters of a component. -/
def chars : Component → List Char
  | field name => '.' :: name.toList
  | arrayIndex name index => name.toList ++ '[' :: (Text.wordText index ++ [']'])
  | arrayAll name => name.toList ++ ['[', '*', ']']
  | arrayAllOffset name offset => name.toList ++ '[' :: '*' :: '+' :: (offset.toList ++ [']'])
  | arrayRange name first last =>
    name.toList ++ '[' :: (Text.wordText first ++ ':' :: (Text.wordText last ++ [']']))
  | arrayValues name indices => name.toList ++ '[' :: (indexList indices ++ [']'])
  | wildcard => ['.', '*']
  | recursiveDescent => ['.', '.']

/-- The text of a component. -/
def text (component : Component) : String := String.ofList component.chars

/-- Whether the text of a component has a dot of its own in front. -/
def hasOwnDot : Component → Bool
  | field _ => true
  | wildcard => true
  | recursiveDescent => true
  | _ => false

end Component

namespace Path

/-- A text without one dot in front, if there is one. -/
def dropDot : List Char → List Char
  | '.' :: rest => rest
  | cs => cs

/-- The characters of components, separated by single dots. The two dots of a descent separate it
from the component behind it. -/
def renderFrom (afterDescent : Bool) : List Component → List Char
  | [] => []
  | component :: rest =>
    (if afterDescent then dropDot component.chars
      else if component.hasOwnDot then component.chars
      else '.' :: component.chars) ++
    renderFrom (component == .recursiveDescent) rest

/-- The path expression of a list of components. -/
def render (components : List Component) : String :=
  String.ofList ('$' :: renderFrom false components)

end Path

end Reshape
