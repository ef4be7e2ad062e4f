import Reshape.Json.Locator
import Reshape.Json.Writer
import Reshape.Machine.Stack

/-!
# The cursor

A document and a position in it. The position is kept three times: as the trail of locators from
the root, as a path to show, and as the paths of the nodes above, so that moving out shows the path
before. A cursor whose node has been deleted is detached until it moves up.

* `Cursor`, with `current?`, `toRoot`, `moveOut`, `intoChild`;
* `Cursor.intoField`, which puts something where a field is missing (`FieldMode`);
* `Cursor.intoIndex`, which fills an array up to a position;
* `Cursor.write` and `Cursor.delete`;
* `CursorError`, why a move or a change fails, and its message.
-/

namespace Reshape

/-- How a field is entered, and what is put there if it is missing. -/
inductive FieldMode where
  /-- As an object on the way; an object is put there. -/
  | object
  /-- As an array; an array is put there, also in place of a value of another kind. -/
  | array
  /-- As the place to write to; null is put there. -/
  | leaf
  deriving DecidableEq

namespace FieldMode

/-- The name of the instruction that enters a field so. -/
def instruction : FieldMode → String
  | object => "MoveIntoObject"
  | array => "MoveIntoArray"
  | leaf => "MoveIntoField"

/-- Whether a value that is there stays. -/
def accepts : FieldMode → Json → Bool
  | array, .array _ => true
  | array, _ => false
  | _, _ => true

/-- What is put where a value is missing. -/
def initial : FieldMode → Json
  | object => Json.emptyObject
  | array => Json.emptyArray
  | leaf => .null

end FieldMode

/-- Why a cursor cannot be moved, or its node not be read or changed. -/
inductive CursorError where
  /-- The trail does not lead to a node. -/
  | detached
  /-- An instruction needs a node of another kind. -/
  | requires (instruction expected : String) (found : Json.Kind)
  /-- The position to enter is a number below zero, or none. -/
  | negativeIndex (index : Json)
  /-- A field was to be written into a value that is no object. -/
  | writeField (name : String) (found : Json.Kind)
  /-- An item was to be written into a value that is no array. -/
  | writeIndex (position : Nat) (found : Json.Kind)
  /-- The array has no item at the position. -/
  | outOfRange (position length : Nat)
  /-- The root cannot be deleted. -/
  | deleteRoot

/-- The message of a cursor error. -/
def CursorError.message : CursorError → String
  | detached => "cursor does not address a node"
  | requires instruction expected found =>
    instruction ++ " requires the cursor to be " ++ expected ++ ", found " ++ found.name
  | negativeIndex index => "array index " ++ index.render ++ " is negative"
  | writeField name found => "cannot write field " ++ name ++ " into " ++ found.name
  | writeIndex position found =>
    "cannot write index " ++ toString position ++ " into " ++ found.name
  | outOfRange position length =>
    "index " ++ toString position ++ " out of range for array of length " ++ toString length
  | deleteRoot => "cannot delete the document root"

/-- A document and a position in it. -/
structure Cursor where
  document : Json
  /-- The path of the current node. -/
  path : String
  /-- The paths of the nodes above, the nearest on top. -/
  paths : Stack String
  /-- The locators from the root to the current node, the last on top. -/
  states : Stack Locator
  /-- Set by deleting the current node, unset by moving up. -/
  detached : Bool

namespace Cursor

/-- The path of the root. -/
def rootPath : String := "$"

/-- The cursor at the root of a document. -/
def atRoot (document : Json) : Cursor :=
  ⟨document, rootPath, Stack.empty "path", Stack.empty "state", false⟩

/-- The locators from the root down. -/
def trail (c : Cursor) : List Locator := c.states.toList

/-- The current node. -/
def current? (c : Cursor) : Option Json :=
  if c.detached then none else Json.resolve c.trail c.document

/-- The current node, or the error that there is none. -/
def current (c : Cursor) : Except CursorError Json :=
  match c.current? with
  | some node => .ok node
  | none => .error .detached

/-! ### Moving -/

/-- Move to the root. -/
def toRoot (c : Cursor) : Cursor :=
  { c with path := rootPath, paths := c.paths.clear, states := c.states.clear, detached := false }

/-- Move to the parent; at the root, stay. -/
def moveOut (c : Cursor) : Cursor :=
  match c.paths.items, c.states.items with
  | path :: paths, _ :: states =>
    { c with
      path := path
      paths := { c.paths with items := paths }
      states := { c.states with items := states }
      detached := false }
  | _, _ => c

/-- Move to a child. -/
def intoChild (c : Cursor) (locator : Locator) : Cursor :=
  { c with
    path := c.path ++ locator.text
    paths := c.paths.push c.path
    states := c.states.push locator }

/-- Change the current node, which has to be there, by a function that may refuse. -/
def modify (c : Cursor) (f : Json → Except ε Json) (missing : ε) : Except ε Cursor :=
  match c.current? with
  | none => .error missing
  | some node => (f node).map fun new => { c with document := Json.replace c.trail new c.document }

/-- An object with a field to enter. -/
def withField (mode : FieldMode) (name : String) : Json → Except CursorError Json
  | .object fields =>
    match Entries.get? name fields with
    | some existing =>
      if mode.accepts existing then .ok (.object fields)
      else .ok (.object (Entries.insert name mode.initial fields))
    | none => .ok (.object (Entries.insert name mode.initial fields))
  | other => .error (.requires mode.instruction "an object" other.kind)

/-- Move into a field of the current object. -/
def intoField (c : Cursor) (mode : FieldMode) (name : String) : Except CursorError Cursor :=
  (c.modify (withField mode name) .detached).map fun c => c.intoChild (.field name)

/-- How many items an array of a length needs more to have one at a position. No array is longer
than the last position. -/
def missingItems (position length : Nat) : Nat := min (position + 1) Number.lastIndex - length

/-- Why a position cannot be entered. -/
inductive IndexError where
  | cursor (e : CursorError)
  /-- The array would grow by more items than allowed. -/
  | padding (position length limit : Nat)

/-- An array with an item at a position, if at most `limit` items are missing. -/
def withIndex (limit position : Nat) : Json → Except IndexError Json
  | .array items =>
    let missing := missingItems position items.length
    if missing = 0 then .ok (.array items)
    else if limit < missing then .error (.padding position items.length limit)
    else .ok (.array (items ++ List.replicate missing Json.emptyObject))
  | other => .error (.cursor (.requires "MoveIntoIndex" "an array" other.kind))

/-- Move to a position of the current array, appending empty objects up to it. -/
def intoIndex (c : Cursor) (limit position : Nat) : Except IndexError Cursor :=
  (c.modify (withIndex limit position) (.cursor .detached)).map fun c => c.intoChild (.index position)

/-! ### Changing the document -/

/-- A container with a child written into it. -/
def withChild (locator : Locator) (value : Json) (node : Json) : Except CursorError Json :=
  match locator, node with
  | .field name, .object fields => .ok (.object (Entries.insert name value fields))
  | .field name, other => .error (.writeField name other.kind)
  | .index position, .array items =>
    if position < items.length then .ok (.array (items.set position value))
    else .error (.outOfRange position items.length)
  | .index position, other => .error (.writeIndex position other.kind)

/-- A container with a child taken out of it. -/
def withoutChild (locator : Locator) (node : Json) : Except CursorError Json :=
  match locator, node with
  | .field name, .object fields => .ok (.object (Entries.erase name fields))
  | .index position, .array items =>
    if position < items.length then .ok (.array (items.eraseIdx position))
    else .error (.outOfRange position items.length)
  | _, other => .ok other

/-- Change the parent of the current node. -/
def modifyParent (c : Cursor) (above : List Locator) (f : Json → Except CursorError Json) :
    Except CursorError Cursor :=
  let parents := above.reverse
  match Json.resolve parents c.document with
  | none => .error .detached
  | some parent =>
    (f parent).map fun new => { c with document := Json.replace parents new c.document }

/-- Put a value in place of the current node. -/
def write (c : Cursor) (value : Json) : Except CursorError Cursor :=
  if c.detached then .error .detached
  else
    match c.states.items with
    | [] => .ok { c with document := value }
    | last :: above => c.modifyParent above (withChild last value)

/-- Take the current node out of its parent. The trail is kept, so that moving out leads to the
parent. -/
def delete (c : Cursor) : Except CursorError Cursor :=
  if c.detached then .error .detached
  else
    match c.states.items with
    | [] => .error .deleteRoot
    | last :: above =>
      (c.modifyParent above (withoutChild last)).map fun c => { c with detached := true }

end Cursor

end Reshape
