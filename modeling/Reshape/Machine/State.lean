import Reshape.Machine.Error
import Reshape.Machine.Event
import Reshape.Program.Instruction

/-!
# The state of a machine

* `Machine`, with `Machine.start` and `Machine.view`;
* `Machine.stackReport` and `Machine.stateReport`, the state as text;
* `Operand.resolve` and `StopCondition.isMet`, what a program reads from a machine.
-/

namespace Reshape

/-- A machine that runs programs on a document. -/
structure Machine where
  cursor : Cursor
  elements : Stack Json
  values : Stack Json
  commands : Stack Program
  /-- How many loops are running. -/
  loopLevel : Nat
  /-- How often the loop at each level has completed its body. -/
  loopCounters : Entries Nat Nat
  /-- How many instructions have been completed. -/
  operations : Nat
  limits : Limits
  /-- Whether single instructions are reported. -/
  trace : Bool
  /-- What has been reported, the latest first. -/
  log : List Event

namespace Machine

/-- A machine at the root of a document, with nothing on its stacks. -/
def start (document : Json) (limits : Limits) (trace : Bool) : Machine where
  cursor := Cursor.atRoot document
  elements := Stack.empty "element"
  values := Stack.empty "value"
  commands := Stack.empty "command"
  loopLevel := 0
  loopCounters := []
  operations := 0
  limits := limits
  trace := trace
  log := []

/-- The document of a machine. -/
def document (m : Machine) : Json := m.cursor.document

/-- The machine as a condition sees it. -/
def view (m : Machine) : View where
  cursor := m.cursor
  elements := m.elements
  values := m.values
  commandCount := m.commands.length
  loopLevel := m.loopLevel
  operations := m.operations
  limits := m.limits

/-- Report an event. -/
def record (m : Machine) (event : Event) : Machine := { m with log := event :: m.log }

/-! ### The state as text -/

/-- One line for each item of a stack, the top first. -/
def itemLines (label : String) (depth : Nat) : List Json → String
  | [] => ""
  | item :: rest =>
    s!"  {label}[{depth}] = " ++ item.render ++ "\n" ++ itemLines label (depth + 1) rest

/-- The sizes of the stacks, and the elements and values on them. -/
def stackReport (m : Machine) : String :=
  let elements := m.elements.length
  let values := m.values.length
  let commands := m.commands.length
  let paths := m.cursor.paths.length
  let states := m.cursor.states.length
  s!"stacks: elements={elements} values={values} commands={commands} paths={paths} " ++
    s!"states={states}\n" ++
    itemLines "element" 0 m.elements.items ++ itemLines "value" 0 m.values.items

/-- The position, the counters and the stacks. -/
def stateReport (m : Machine) : String :=
  let path := m.cursor.path
  let level := m.loopLevel
  let operations := m.operations
  let limit := m.limits.operations
  let current := match m.cursor.current? with
    | some node => node.render
    | none => "<detached>"
  s!"path: {path}\nloop level: {level}, operations: {operations}/{limit}\ncurrent: {current}\n" ++
    m.stackReport

end Machine

/-! ### What a program reads -/

/-- The value of an operand. -/
def Operand.resolve (m : Machine) : Operand → Except Failure Json
  | given v => .ok v
  | field name =>
    match m.cursor.current with
    | .ok node => .ok ((node.get? name).getD .null)
    | .error e => .error (.navigation e)
  | value depth => (m.values.peekAt depth).mapError Failure.stackUnderflow
  | current => m.cursor.current.mapError Failure.navigation

/-- The number at a depth of the value stack. -/
def Machine.numberAt (m : Machine) (depth : Nat) : Except Failure Number :=
  match m.values.peekAt depth with
  | .error e => .error (.stackUnderflow e)
  | .ok value =>
    match value.toNumber? with
    | some n => .ok n
    | none => .error (.typeMismatch .number value.kind)

/-- Whether a loop is to stop. -/
def StopCondition.isMet (m : Machine) : StopCondition → Except Failure Bool
  | reached counter bound =>
    if m.values.length ≤ max counter bound then .ok true
    else
      match m.numberAt counter, m.numberAt bound with
      | .ok current, .ok limit => .ok (limit.le current)
      | .error e, _ => .error e
      | _, .error e => .error e
  | custom predicate => .ok (predicate.holds m.view)

end Reshape
