import Reshape.Machine.Effect

/-!
# Running programs

Some instructions run others: the body on top of the command stack, once or in a loop, the inner
instruction of a jump, or a body on a machine for each item of an array. How deep that nests is
bounded by fuel; a run that has not ended within it has no outcome, and every other run has the same
outcome with any more fuel.

* `Outcome`, the machine that a run leaves, and the error if it failed;
* `Machine.complete` and `Machine.fail`, the end of an instruction;
* `Loop.iterate`, `Machine.loopUntil`, `Machine.jump`, `Machine.mapArray`;
* `Machine.step`, one instruction, given how bodies are run;
* `Machine.run` and `Machine.execute`, a program.
-/

namespace Reshape

/-- How a run ended. -/
inductive Outcome where
  | done (machine : Machine)
  | failed (error : MachineError) (machine : Machine)

namespace Outcome

/-- The machine that a run left. -/
def machine : Outcome → Machine
  | done m => m
  | failed _ m => m

/-- The error of a run that failed. -/
def error? : Outcome → Option MachineError
  | done _ => none
  | failed e _ => some e

/-- Whether a run succeeded. -/
def isDone : Outcome → Bool
  | done _ => true
  | failed .. => false

/-- The outcome with another machine. -/
def map (f : Machine → Machine) : Outcome → Outcome
  | done m => done (f m)
  | failed e m => failed e (f m)

/-- A failure outside any instruction. -/
def bare (cause : Failure) (m : Machine) : Outcome := failed (MachineError.bare cause) m

/-- The outcome of an effect. -/
def ofEffect (effect : Effect Unit) (m : Machine) : Outcome :=
  match effect.run m with
  | .ok _ m => done m
  | .error cause m => bare cause m

end Outcome

/-- How a program is run, if the run ends within the fuel. -/
abbrev Runner := Program → Machine → Option Outcome

/-- Run instructions one after the other, up to the first failure. -/
def inSequence (step : Instruction → Machine → Option Outcome) : Runner
  | [], m => some (.done m)
  | instruction :: rest, m =>
    match step instruction m with
    | some (.done m) => inSequence step rest m
    | other => other

namespace Machine

/-- Report that an instruction starts, if tracing is on. -/
def announce (m : Machine) (instruction : Instruction) : Machine :=
  if m.trace then m.record (.step instruction.text m.cursor.path) else m

/-- Report that an instruction has not failed, if tracing is on. -/
def confirm (m : Machine) (instruction : Instruction) : Machine :=
  if m.trace then
    m.record (.done instruction.name m.elements.length m.values.length m.document)
  else m

/-- Count an instruction that has not failed. The count may not pass its ceiling. -/
def complete (m : Machine) (instruction : Instruction) : Outcome :=
  let m := m.confirm instruction
  let m := { m with operations := m.operations + 1 }
  if m.limits.operations < m.operations then
    .bare (.operationLimitExceeded m.limits.operations) m
  else .done m

/-- Put the frame of an instruction that has failed around its error. -/
def fail (m : Machine) (instruction : Instruction) (error : MachineError) : Outcome :=
  .failed (error.within ⟨instruction.text, m.cursor.path, m.stackReport⟩) m

/-! ### Bodies on the command stack -/

/-- Run the body on top of the command stack. -/
def runCommand (run : Runner) (m : Machine) : Option Outcome :=
  match m.commands.peek with
  | .ok body => run body m
  | .error e => some (.bare (.stackUnderflow e) m)

/-- Set how often the loop at a level has completed its body. -/
def setCounter (m : Machine) (level count : Nat) : Machine :=
  { m with loopCounters := m.loopCounters.insert level count }

/-- Run the body on top of the command stack until a condition is met, at most `remaining` times
more. -/
def iterate (run : Runner) (condition : StopCondition) (level limit : Nat) :
    (remaining : Nat) → Machine → Option Outcome
  | remaining, m =>
    match condition.isMet m with
    | .error cause => some (.bare cause m)
    | .ok true => some (.done m)
    | .ok false =>
      match remaining with
      | 0 => some (.bare (.loopLimitExceeded level limit) m)
      | remaining + 1 =>
        match m.runCommand run with
        | some (.done m) =>
          iterate run condition level limit remaining (m.setCounter level (limit - remaining))
        | other => other

/-- The start of a loop, one level deeper. -/
def enterLoop (m : Machine) : Machine :=
  { m with loopLevel := m.loopLevel + 1 }.setCounter (m.loopLevel + 1) 0

/-- Clean up after the loop at a level: forget its counter, go up a level, and take its body off
the command stack. -/
def leaveLoop (level : Nat) (ok : Bool) (m : Machine) : Machine :=
  { m with
    loopLevel := m.loopLevel - 1
    loopCounters := m.loopCounters.erase level
    commands := { m.commands with items := m.commands.items.tail } }.record
    (.loopFinished level ((m.loopCounters.get? level).getD 0) ok)

/-- Run the body on top of the command stack until a condition is met. -/
def loopUntil (run : Runner) (condition : StopCondition) (m : Machine) : Option Outcome :=
  let level := m.loopLevel + 1
  let limit := m.limits.loopIterations
  match iterate run condition level limit limit m.enterLoop with
  | some outcome => some (outcome.map (leaveLoop level outcome.isDone))
  | none => none

/-- Take a value, and run an instruction if it counts as expected. -/
def jump (run : Runner) (expected : Bool) (inner : Instruction) (m : Machine) : Option Outcome :=
  match Effect.takeValue.run m with
  | .error cause m => some (.bare cause m)
  | .ok value m =>
    if value.truthiness = some expected then run [inner] m else some (.done m)

/-! ### Bodies on the items of an array -/

/-- The machine for an item: a fresh one under the same ceilings, which reports to the same log. -/
def spawn (m : Machine) (item : Json) : Machine :=
  { start item m.limits m.trace with log := m.log }

/-- What a body makes of each item, and the machine with what has been reported. -/
def mapItems (run : Machine → Option Outcome) (m : Machine) (index : Nat) :
    List Json → Option (Machine × Except MachineError (List Json))
  | [] => some (m, .ok [])
  | item :: rest =>
    let m := m.record (.subMachine index m.cursor.path)
    match run (m.spawn item) with
    | none => none
    | some (.failed e sub) => some ({ m with log := sub.log }, .error e)
    | some (.done sub) =>
      match mapItems run { m with log := sub.log } (index + 1) rest with
      | some (m, .ok mapped) => some (m, .ok (sub.document :: mapped))
      | other => other

/-- Replace each item of the current array by what a body makes of it. -/
def mapArray (run : Runner) (body : Program) (m : Machine) : Option Outcome :=
  match (Effect.currentItems "MapArray").run m with
  | .error cause m => some (.bare cause m)
  | .ok items m =>
    match mapItems (run body) m 0 items with
    | none => none
    | some (m, .error e) => some (.failed e m)
    | some (m, .ok mapped) => some (.ofEffect (Effect.write (.array mapped)) m)

/-! ### Instructions and programs -/

/-- What an instruction does, given how bodies are run. -/
def carryOut (run : Runner) (instruction : Instruction) (m : Machine) : Option Outcome :=
  match instruction with
  | .popCommand => m.runCommand run
  | .loopUntil condition => m.loopUntil run condition
  | .jumpIfTrue inner => m.jump run true inner
  | .jumpIfFalse inner => m.jump run false inner
  | .mapArray body => m.mapArray run body
  | other => some (.ofEffect other.perform m)

/-- One instruction, reported and counted or put into the frame of its error. -/
def step (run : Runner) (instruction : Instruction) (m : Machine) : Option Outcome :=
  match (m.announce instruction).carryOut run instruction with
  | none => none
  | some (.done m) => some (m.complete instruction)
  | some (.failed e m) => some (m.fail instruction e)

/-- Run a program in which bodies nest less than `fuel` deep. -/
def run : (fuel : Nat) → Runner
  | 0, _, _ => none
  | fuel + 1, program, m => inSequence (step (run fuel)) program m

/-- Fuel beyond any nesting of bodies that a program reaches in practice. -/
def ampleFuel : Nat := 1000000

/-- A machine with nothing reported. -/
def clearLog (m : Machine) : Machine := { m with log := [] }

/-- Run a program and report that it starts. -/
def execute (fuel : Nat) (program : Program) (m : Machine) : Option Outcome :=
  run fuel program (m.record (.executing program.length m.trace))

end Machine

end Reshape
