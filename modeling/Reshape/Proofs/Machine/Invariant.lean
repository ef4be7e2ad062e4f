import Reshape.Proofs.Machine.Composed
import Reshape.Proofs.Machine.Law

/-!
# Invariants of the cursor

A property that every operation of a cursor keeps holds of the cursor of every machine that a run
passes through, whatever the program does with the stacks, its bodies and its loops.

* `Cursor.Invariant`, a property of cursors that the operations keep, and `Cursor.Steady`, one that
  is kept as long as the cursor does not move up (`Instruction.movesUp`);
* `Effect.Keeps`, an effect that keeps a property, with `Keeps.closed` and `Steady.closedInside`;
* `Instruction.perform_keeps`, `Steady.perform` and `Invariant.perform`, for single instructions;
* `Invariant.law`, to keep the property is a law of runs, and `Invariant.run`, for programs that
  end;
* `Invariant.next` and `Invariant.visits`, for the machines on the way.
-/

namespace Reshape

/-- A property that holds at the root of every document and that every operation keeps. -/
structure Cursor.Invariant (P : Cursor → Prop) : Prop where
  atRoot : ∀ document, P (Cursor.atRoot document)
  toRoot : ∀ {c}, P c → P c.toRoot
  moveOut : ∀ {c}, P c → P c.moveOut
  intoField : ∀ {c c' mode name}, P c → c.intoField mode name = .ok c' → P c'
  intoIndex : ∀ {c c' limit position}, P c → c.intoIndex limit position = .ok c' → P c'
  write : ∀ {c c' value}, P c → c.write value = .ok c' → P c'
  delete : ∀ {c c'}, P c → c.delete = .ok c' → P c'

/-- A property that every operation keeps that does not move up. -/
structure Cursor.Steady (P : Cursor → Prop) : Prop where
  intoField : ∀ {c c' mode name}, P c → c.intoField mode name = .ok c' → P c'
  intoIndex : ∀ {c c' limit position}, P c → c.intoIndex limit position = .ok c' → P c'
  write : ∀ {c c' value}, P c → c.write value = .ok c' → P c'
  delete : ∀ {c c'}, P c → c.delete = .ok c' → P c'

theorem Cursor.Invariant.steady {P : Cursor → Prop} (hP : Invariant P) : Steady P :=
  ⟨hP.intoField, hP.intoIndex, hP.write, hP.delete⟩

/-! ### Effects -/

/-- An effect leaves a cursor with the property, whether it fails or not. -/
def Effect.Keeps {α : Type} (P : Cursor → Prop) (e : Effect α) : Prop :=
  ∀ m : Machine, P m.cursor → P (e.left m).cursor

namespace Effect.Keeps

variable {P : Cursor → Prop}

theorem closed : Closed (Keeps P) :=
  Leaves.closed (R := fun m m' => P m.cursor → P m'.cursor) (fun _ => id)
    (fun _ _ _ h h' => h' ∘ h) (fun _ _ => id) fun _ _ => id

theorem pushCommand (body : Program) : Keeps P (Instruction.pushCommand body).perform :=
  fun _ hm => hm

theorem takeValue : Keeps P Effect.takeValue := closed.takeValue

theorem moveCursor {f : Cursor → Except CursorError Cursor}
    (hf : ∀ c c', P c → f c = .ok c' → P c') : Keeps P (Effect.moveCursor f) :=
  Leaves.moveCursor (R := fun m m' => P m.cursor → P m'.cursor) (fun _ => id)
    fun h hm => hf _ _ hm h

end Effect.Keeps

/-- An instruction that neither moves nor writes keeps every property of the cursor. -/
theorem Instruction.perform_keeps {P : Cursor → Prop} {i : Instruction} (hup : i.movesUp = false)
    (hinside : i.movesInside = false) (hwrites : i.writesBack = false) :
    Effect.Keeps P i.perform := by
  refine Effect.Keeps.closed.perform hup hinside hwrites ?_
  rintro body rfl
  exact .pushCommand body

namespace Cursor.Steady

variable {P : Cursor → Prop} (hP : Cursor.Steady P)

include hP

theorem closedInside : Effect.ClosedInside (Effect.Keeps P) where
  toClosed := Effect.Keeps.closed
  intoField _ _ := .moveCursor fun _ _ => hP.intoField
  intoIndex := Effect.Leaves.intoIndex (R := fun m m' => P m.cursor → P m'.cursor) (fun _ => id)
    fun h hm => hP.intoIndex hm h
  write _ := .moveCursor fun _ _ => hP.write
  delete := .moveCursor fun _ _ => hP.delete

/-- A single instruction that does not move up keeps the property. -/
theorem perform {i : Instruction} (hup : i.movesUp = false) : Effect.Keeps P i.perform := by
  refine hP.closedInside.perform hup ?_
  rintro body rfl
  exact .pushCommand body

end Cursor.Steady

/-- What a single instruction does keeps the property. -/
theorem Cursor.Invariant.perform {P : Cursor → Prop} (hP : Cursor.Invariant P)
    (instruction : Instruction) : Effect.Keeps P instruction.perform := by
  cases hup : instruction.movesUp with
  | false => exact hP.steady.perform hup
  | true =>
    cases instruction with
    | moveToRoot => exact fun _ hm => hP.toRoot hm
    | moveOut => exact fun _ hm => hP.moveOut hm
    | reset => exact fun _ hm => hP.toRoot hm
    | _ => cases hup

/-! ### Programs -/

/-- A way of running programs leaves cursors with the property. -/
def Runner.Keeps (P : Cursor → Prop) (r : Runner) : Prop :=
  ∀ program m o, r program m = some o → P m.cursor → P o.machine.cursor

namespace Cursor.Invariant

variable {P : Cursor → Prop} (hP : Cursor.Invariant P)

include hP

/-- To keep the property is a law: single instructions keep it, the machines for items start at a
root of their own, and everything else leaves the cursor where it is. -/
theorem law : Outcome.Law fun m o => P m.cursor → P o.machine.cursor where
  refl _ hm := hm
  bare _ _ hm := hm
  trans h ho hm := ho (h hm)
  announce m i hm := by
    show P (m.announce i).cursor
    rwa [Machine.cursor_announce]
  perform i m hm := by
    rw [Effect.machine_ofEffect]
    exact hP.perform i m hm
  complete m i hm := by rwa [Machine.cursor_complete]
  fail _ h := h
  setCounter _ _ _ hm := hm
  loop {m o} h hm := by
    have ho : P o.machine.cursor := h hm
    cases o <;> exact ho
  item {m index item o} _ hm := by cases o <;> exact hm

/-- A run that ends leaves a cursor with the property. -/
theorem run (fuel : Nat) : Runner.Keeps P (Machine.run fuel) := hP.law.run fuel

/-- From one point to the next, the property is kept. -/
theorem next {point point' : Machine.Point} (h : P point.2.cursor)
    (hnext : Machine.Next point point') : P point'.2.cursor := by
  cases hnext with
  | done hstep => exact hP.law.step (hP.law.run _) hstep h
  | failed hstep => exact hP.law.step (hP.law.run _) hstep h
  | enters hcalls =>
    rw [← Machine.cursor_announce] at h
    rcases hP.law.calls hcalls with hm | hm | ⟨m, index, item, _, rfl⟩
    · exact hm h
    · exact hm h
    · exact hP.atRoot item

/-- All machines that a run passes through have the property. -/
theorem visits {program : Program} {m s : Machine} (h : m.Visits program s) (hm : P m.cursor) :
    P s.cursor := by
  obtain ⟨_, hs⟩ := h.exists_point (P := fun point => P point.2.cursor) hm hP.next
  exact hs

theorem executed {m m' : Machine} (h : m.Executed m') (hm : P m.cursor) : P m'.cursor := by
  induction h with
  | refl => exact hm
  | next _ ho ih => exact hP.run _ _ _ _ ho ih

end Cursor.Invariant

end Reshape
