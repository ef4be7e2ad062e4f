import Reshape.Machine.Cursor

/-!
# Failures of a machine

* `Failure`, the cause of a failure, and its message;
* `Frame`, an instruction that was being run, with the path and the stacks at the time;
* `MachineError`, a cause with the frames around it, the outermost first.
-/

namespace Reshape

/-- Why a machine cannot go on. -/
inductive Failure where
  | stackUnderflow (e : Underflow)
  | navigation (e : CursorError)
  | typeMismatch (expected found : Json.Kind)
  | loopLimitExceeded (level limit : Nat)
  | operationLimitExceeded (limit : Nat)
  | paddingLimitExceeded (index length limit : Nat)

/-- The message of a failure. -/
def Failure.message : Failure → String
  | stackUnderflow e => e.message
  | navigation e => "Navigation error: " ++ e.message
  | typeMismatch expected found =>
    "Type mismatch: expected " ++ expected.name ++ ", found " ++ found.name
  | loopLimitExceeded level limit =>
    s!"Loop iteration limit of {limit} exceeded at loop level {level}"
  | operationLimitExceeded limit =>
    s!"Operation limit of {limit} exceeded, possible infinite loop"
  | paddingLimitExceeded index length limit =>
    s!"Array index {index} would pad an array of length {length} past the limit of {limit} " ++
      "new elements"

/-- An instruction that was being run when a failure arose. -/
structure Frame where
  instruction : String
  path : String
  /-- The stacks as text. -/
  report : String
  deriving DecidableEq

/-- The message of what failed inside a frame. -/
def Frame.around (frame : Frame) (message : String) : String :=
  frame.instruction ++ " failed at " ++ frame.path ++ ": " ++ message

/-- A failure with the instructions that were being run, the outermost first. -/
structure MachineError where
  frames : List Frame
  cause : Failure

namespace MachineError

/-- A failure outside any instruction. -/
def bare (cause : Failure) : MachineError := ⟨[], cause⟩

/-- The error inside one more instruction. -/
def within (e : MachineError) (frame : Frame) : MachineError := { e with frames := frame :: e.frames }

/-- The message of an error. -/
def message (e : MachineError) : String := e.frames.foldr Frame.around e.cause.message

end MachineError

end Reshape
