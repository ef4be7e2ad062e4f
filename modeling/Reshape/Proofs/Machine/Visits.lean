import Mathlib.Logic.Relation
import Reshape.Machine.Run

/-!
# The machines on the way

`Machine.run` gives the machine that a program leaves. Here are the machines in between: those
before and after each instruction, also inside the bodies that an instruction runs, and also in a
run that fails or does not end.

* `LoopHead`, the machines of which a loop asks whether it is to stop;
* `Calls`, the bodies that an instruction runs, with the machines that they start on;
* `Next` and `Visits`, the machines that a call passes through, and `Visits.exists_point`, which
  follows them;
* `Executed`, the machines that calls leave, one after the other.
-/

namespace Reshape.Machine

/-- The machine `m` after so many rounds of a loop that was entered on `start`, when the loop asks
whether it is to stop. -/
inductive LoopHead (condition : StopCondition) (level limit : Nat) (start : Machine) :
    (rounds : Nat) → (m : Machine) → Prop
  | zero : LoopHead condition level limit start 0 start
  | succ {rounds fuel : Nat} {m m' : Machine}
      (h : LoopHead condition level limit start rounds m)
      (hunmet : condition.isMet m = .ok false) (hlimit : rounds < limit)
      (hround : m.runCommand (run fuel) = some (.done m')) :
      LoopHead condition level limit start (rounds + 1) (m'.setCounter level (rounds + 1))

/-- An instruction that is carried out on a machine runs a body on another machine. -/
inductive Calls : Instruction → Machine → Program → Machine → Prop
  | command {m : Machine} {body : Program} (hbody : m.commands.peek = .ok body) :
      Calls .popCommand m body m
  | loop {condition : StopCondition} {rounds : Nat} {m head : Machine} {body : Program}
      (hhead : LoopHead condition (m.loopLevel + 1) m.limits.loopIterations m.enterLoop rounds head)
      (hunmet : condition.isMet head = .ok false) (hlimit : rounds < m.limits.loopIterations)
      (hbody : head.commands.peek = .ok body) :
      Calls (.loopUntil condition) m body head
  | jumpIfTrue {inner : Instruction} {m m' : Machine} {value : Json}
      (hvalue : Effect.takeValue.run m = .ok value m') (htrue : value.truthiness = some true) :
      Calls (.jumpIfTrue inner) m [inner] m'
  | jumpIfFalse {inner : Instruction} {m m' : Machine} {value : Json}
      (hvalue : Effect.takeValue.run m = .ok value m') (hfalse : value.truthiness = some false) :
      Calls (.jumpIfFalse inner) m [inner] m'
  | item {fuel : Nat} {m m' : Machine} {body : Program} {before after mapped : List Json}
      {item : Json} (hitems : m.cursor.current = .ok (.array (before ++ item :: after)))
      (hbefore : m.mapItems (run fuel body) 0 before = some (m', .ok mapped)) :
      Calls (.mapArray body) m body
        ((m'.record (.subMachine before.length m'.cursor.path)).spawn item)

/-- The instructions that are left of a program or body, and the machine in front of them. -/
abbrev Point := Program × Machine

/-- One point of a run comes after another, or is the start of a body in the first instruction. -/
inductive Next : Point → Point → Prop
  | done {fuel : Nat} {i : Instruction} {rest : Program} {m m' : Machine}
      (h : step (run fuel) i m = some (.done m')) : Next (i :: rest, m) (rest, m')
  | failed {fuel : Nat} {i : Instruction} {rest : Program} {m m' : Machine} {e : MachineError}
      (h : step (run fuel) i m = some (.failed e m')) : Next (i :: rest, m) ([], m')
  | enters {i : Instruction} {rest body : Program} {m m' : Machine}
      (h : Calls i (m.announce i) body m') : Next (i :: rest, m) (body, m')

/-- A call that executes the program on `m` passes through `s`. -/
def Visits (m : Machine) (program : Program) (s : Machine) : Prop :=
  ∃ rest, Relation.ReflTransGen Next (program, m.record (.executing program.length m.trace))
    (rest, s)

/-- Calls that execute one program after another, some of which may fail, take `m` to a machine. -/
inductive Executed (m : Machine) : Machine → Prop
  | refl : Executed m m
  | next {fuel : Nat} {program : Program} {m' : Machine} {o : Outcome} (h : Executed m m')
      (ho : m'.execute fuel program = some o) : Executed m o.machine

/-- What a call starts with, and what is kept from each point to the next, is there at every machine
that the call passes through. -/
theorem Visits.exists_point {P : Point → Prop} {program : Program} {m s : Machine}
    (h : m.Visits program s)
    (hstart : P (program, m.record (.executing program.length m.trace)))
    (hnext : ∀ {point next}, P point → Next point next → P next) : ∃ rest, P (rest, s) := by
  have hpoints : ∀ point,
      Relation.ReflTransGen Next (program, m.record (.executing program.length m.trace)) point →
        P point := by
    intro point hpoint
    induction hpoint with
    | refl => exact hstart
    | tail _ hstep ih => exact hnext ih hstep
  obtain ⟨rest, h⟩ := h
  exact ⟨rest, hpoints _ h⟩

/-! ### Bookkeeping leaves the cursor -/

@[simp] theorem cursor_announce (m : Machine) (i : Instruction) :
    (m.announce i).cursor = m.cursor := by
  unfold announce
  split <;> rfl

@[simp] theorem cursor_confirm (m : Machine) (i : Instruction) :
    (m.confirm i).cursor = m.cursor := by
  unfold confirm
  split <;> rfl

@[simp] theorem cursor_complete (m : Machine) (i : Instruction) :
    (m.complete i).machine.cursor = m.cursor := by
  unfold complete
  simp only
  split <;> simp [Outcome.bare, Outcome.machine]

end Reshape.Machine
