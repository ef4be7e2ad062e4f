import Reshape.Json.Writer

/-!
# Events

What a machine reports while it runs.

* `Event` and its text.
-/

namespace Reshape

/-- A report of a machine. -/
inductive Event where
  /-- A program starts. -/
  | executing (instructions : Nat) (trace : Bool)
  /-- A loop has ended and been cleaned up after. -/
  | loopFinished (level iterations : Nat) (ok : Bool)
  /-- An item of an array is given to a machine of its own. -/
  | subMachine (index : Nat) (path : String)
  /-- An instruction starts. -/
  | step (instruction path : String)
  /-- An instruction has not failed. -/
  | done (instruction : String) (elements values : Nat) (document : Json)

/-- The text of an event. -/
def Event.text : Event → String
  | executing instructions trace =>
    s!"DEBUG executing program instructions={instructions} trace={trace}"
  | loopFinished level iterations ok =>
    s!"TRACE loop finished level={level} iterations={iterations} ok={ok}"
  | subMachine index path => s!"TRACE sub-machine index={index} path={path}"
  | step instruction path => s!"DEBUG step instruction={instruction} path={path}"
  | done instruction elements values document =>
    s!"TRACE done instruction={instruction} elements={elements} values={values} document=" ++
      document.render

end Reshape
