import Reshape.Json.Equality
import Reshape.Machine.Cursor
import Reshape.Machine.Limits

/-!
# What a condition sees

A custom loop condition is a question about the machine. `View` is the part of the machine that it
can ask about: everything but the bodies on the command stack, of which it sees the number. This is
a deliberate restriction. Bodies hold conditions themselves, so a question about all of the machine
would be one about questions, for which there is no inductive type; and of a body a condition could
only use whether it is a certain one.

* `View`, with `currentNode?`, `value?`, `element?`;
* `Predicate α`, a question about an `α` with an identity of its own;
* the questions that programs ask about nodes (`Node`) and about machines (`View`). Their bounds are
  integers, so that a count is always at least a negative bound and never at most one.
-/

namespace Reshape

/-- The state of a machine as a condition sees it. -/
structure View where
  cursor : Cursor
  elements : Stack Json
  values : Stack Json
  commandCount : Nat
  loopLevel : Nat
  operations : Nat
  limits : Limits

/-- A question with an identity. Two predicates are equal if they are the same one, whatever they
answer. -/
structure Predicate (α : Type) where
  identity : Nat
  holds : α → Bool

instance : BEq (Predicate α) := ⟨fun p q => p.identity == q.identity⟩

/-! ### Questions about a node -/

namespace Node

/-- The node is of a kind. -/
def hasKind (name : String) (node : Json) : Bool := node.kind.name == name

/-- The node counts as true. -/
def isTruthy (node : Json) : Bool := node.truthiness == some true

/-- The node counts as false. -/
def isFalsy (node : Json) : Bool := node.truthiness == some false

/-- The node has a field. -/
def hasField (name : String) (node : Json) : Bool := (node.get? name).isSome

/-- The node has a field that counts as true. -/
def fieldIsTruthy (name : String) (node : Json) : Bool := (node.get? name).any isTruthy

/-- The node is a number with an even integer part. -/
def isEven (node : Json) : Bool := node.toWord?.any fun word => word % 2 == 0

/-- The node is a number with an integer part of at least `least`. -/
def isAtLeast (least : Int) (node : Json) : Bool :=
  node.toWord?.any fun word => least ≤ word.toInt

/-- The node is a container of at least `least` items or keys. -/
def hasLength (least : Int) (node : Json) : Bool := node.length?.any fun length => least ≤ length

/-- The node is a number that can be an array position. -/
def isIndex (node : Json) : Bool := node.toIndex?.isSome

/-- The node equals a value. -/
def isEqual (value node : Json) : Bool := node == value

end Node

/-! ### Questions about a machine -/

namespace View

/-- At least `least` values are on the value stack. -/
def valuesAtLeast (least : Int) (view : View) : Bool := least ≤ view.values.length

/-- At most `most` values are on the value stack. -/
def valuesAtMost (most : Int) (view : View) : Bool := view.values.length ≤ most

/-- At least `least` elements are on the element stack. -/
def elementsAtLeast (least : Int) (view : View) : Bool := least ≤ view.elements.length

/-- At least `least` loops are running. -/
def levelAtLeast (least : Int) (view : View) : Bool := least ≤ view.loopLevel

/-- At least `least` instructions have been completed. -/
def operationsAtLeast (least : Int) (view : View) : Bool := least ≤ view.operations

/-- The cursor shows a path. -/
def pathIs (path : String) (view : View) : Bool := view.cursor.path == path

/-- The top value is a number with an integer part of at least `least`. -/
def topAtLeast (least : Int) (view : View) : Bool :=
  view.values.items.head?.any (Node.isAtLeast least)

/-- The current node is a container of at least `least` items or keys. -/
def currentLengthAtLeast (least : Int) (view : View) : Bool :=
  view.cursor.current?.any (Node.hasLength least)

/-- There is no current node. -/
def isDetached (view : View) : Bool := view.cursor.current?.isNone

/-- The top element equals a value. -/
def topElementIs (value : Json) (view : View) : Bool :=
  view.elements.items.head?.any (Node.isEqual value)

end View

end Reshape
