import Reshape.Path.Component
import Reshape.Program.Instruction

/-!
# Routes

The instructions that move a cursor along the components of a path, and how many locators they add
to its trail.

* `Route`, with `Route.append`;
* `Route.intoArray`, `Route.along?` one component, `Route.to?` the end of a path;
* `Detour`, why a component is not for a single node or stands in the wrong place;
* `ArrayPath`, a path around the one pattern that stands for the items of an array.
-/

namespace Reshape

/-- Why a component cannot be followed where it stands. -/
inductive Detour where
  /-- The path has an array pattern already. -/
  | secondPattern
  /-- The component selects some items of an array. -/
  | selection
  /-- The component goes to every child or descendant. -/
  | descent
  /-- A component for a single node is needed. -/
  | pattern
  /-- The items of the source array have no offset. -/
  | sourceOffset
  deriving DecidableEq

/-- The reason as text. -/
def Detour.text : Detour → String
  | secondPattern => "only one array pattern per path"
  | selection => "array ranges and index lists are reserved"
  | descent => "wildcards and recursive descent are reserved"
  | pattern => "expected a field or a literal index"
  | sourceOffset => "an offset only applies to the target array"

/-- A component that cannot be followed, and why. -/
structure Blocked where
  component : Component
  reason : Detour
  deriving DecidableEq

/-- The message about a component that cannot be followed. -/
def Blocked.message (e : Blocked) : String :=
  "Unsupported component " ++ e.component.text ++ ": " ++ e.reason.text

/-! ### Following components -/

/-- Instructions that move a cursor down. -/
structure Route where
  moves : Program
  /-- How many locators the moves add to the trail. -/
  depth : Nat

namespace Route

/-- The route that stays. -/
def stay : Route := ⟨[], 0⟩

/-- One route behind another. -/
def append (first second : Route) : Route :=
  ⟨first.moves ++ second.moves, first.depth + second.depth⟩

/-- The route into a field that holds an array. An empty name stands for the node itself. -/
def intoArray (field : String) : Route :=
  if field = "" then stay else ⟨[.moveIntoField .array field], 1⟩

/-- The route along one component. `mode` tells how a field is entered. -/
def along? (mode : FieldMode) : Component → Except Blocked Route
  | .field name => .ok ⟨[.moveIntoField mode name], 1⟩
  | .arrayIndex field index =>
    .ok ((intoArray field).append ⟨[.moveIntoIndex (.given (Json.ofWord index))], 1⟩)
  | other => .error ⟨other, .pattern⟩

/-- The route to the end of a path. `mode` tells how a field at the end is entered; the fields
before it are entered as objects. -/
def to? (mode : FieldMode) : List Component → Except Blocked Route
  | [] => .ok stay
  | [last] => along? mode last
  | component :: rest =>
    match along? .object component with
    | .error e => .error e
    | .ok first => (to? mode rest).map first.append

/-- The route to the end of an offset path, where a pattern stands for the array itself. -/
def toOffset? : List Component → Except Blocked Route
  | [] => .ok stay
  | .arrayAll field :: rest => (toOffset? rest).map (intoArray field).append
  | component :: rest =>
    match along? .object component with
    | .error e => .error e
    | .ok first => (toOffset? rest).map first.append

end Route

/-! ### Array patterns -/

/-- A path around its array pattern. -/
structure ArrayPath where
  before : List Component
  array : Component
  after : List Component

namespace ArrayPath

/-- The field that holds the array. -/
def field (path : ArrayPath) : String := path.array.field?.getD ""

/-- Why there is no array path for some components. -/
inductive Refusal where
  /-- There is no array pattern. -/
  | missing
  | blocked (e : Blocked)

/-- Refuse components for several nodes, behind an array pattern. -/
def checkAfter : List Component → Except Blocked Unit
  | [] => .ok ()
  | component :: rest =>
    match component with
    | .field _ | .arrayIndex .. => checkAfter rest
    | .arrayAll _ | .arrayAllOffset .. => .error ⟨component, .secondPattern⟩
    | .arrayRange .. | .arrayValues .. => .error ⟨component, .selection⟩
    | .wildcard | .recursiveDescent => .error ⟨component, .descent⟩

/-- The array path of components of which one is an array pattern and the others are for single
nodes. -/
def ofComponents? : List Component → Except Refusal ArrayPath
  | [] => .error .missing
  | component :: rest =>
    match component with
    | .field _ | .arrayIndex .. =>
      (ofComponents? rest).map fun path => { path with before := component :: path.before }
    | .arrayAll _ | .arrayAllOffset .. =>
      match checkAfter rest with
      | .ok _ => .ok ⟨[], component, rest⟩
      | .error e => .error (.blocked e)
    | .arrayRange .. | .arrayValues .. => .error (.blocked ⟨component, .selection⟩)
    | .wildcard | .recursiveDescent => .error (.blocked ⟨component, .descent⟩)

end ArrayPath

end Reshape
