import Reshape.Proofs.Cursor.Change
import Reshape.Proofs.Machine.Allowed

/-!
# Programs that leave the document

A document is changed in two ways only: an instruction writes to the current node, or it moves to a
child and puts there what is missing. A program that holds no instruction of either kind leaves the
document as it is, however it loops, jumps and runs bodies, and also if it fails.

* `Instruction.isQuiet`, neither of the two;
* `document_perform_of_isQuiet`, what a quiet instruction leaves;
* `execute_document_eq`, the same for programs.
-/

namespace Reshape

/-- The instruction neither writes nor moves to a child. -/
def Instruction.isQuiet (i : Instruction) : Bool := !i.writesBack && !i.movesInside

/-- Moving up and working on the stacks leaves the document. -/
theorem Instruction.document_perform_of_isQuiet {i : Instruction} (hi : i.isQuiet = true)
    (m : Machine) : (i.perform.left m).document = m.document := by
  have hwrites : i.writesBack = false := by
    simpa using (Bool.and_eq_true_iff.1 hi).1
  have hinside : i.movesInside = false := by
    simpa using (Bool.and_eq_true_iff.1 hi).2
  cases hup : i.movesUp with
  | false =>
    exact perform_keeps (P := fun c => c.document = m.document) hup hinside hwrites m rfl
  | true =>
    cases i with
    | moveToRoot => exact Cursor.document_toRoot m.cursor
    | moveOut => exact Cursor.document_moveOut m.cursor
    | reset => exact Cursor.document_toRoot m.cursor
    | _ => cases hup

namespace Machine

/-- The document is no matter of the command stack, of loops and of counts, and no item of an array
is replaced. -/
theorem along_document :
    Along (fun i => i.everywhere Instruction.isQuiet = true)
      fun m m' => m'.document = m.document where
  refl _ := rfl
  trans h h' := h'.trans h
  bookkeeping _ _ _ := rfl
  perform hi m := Instruction.document_perform_of_isQuiet (Instruction.test_of_everywhere hi) m
  takeValue m := Effect.Keeps.takeValue (P := fun c => c.document = m.document) m rfl
  write hi _ _ := nomatch hi
  setCounter _ _ _ := rfl
  loop h _ := h

/-- **Only writes and moves to children change the document.** Take any program in which no
instruction, at whatever depth of bodies and jumps, writes to the current node or moves to a child,
and any machine whose command stack holds only such bodies. Every call that ends leaves the document
as it is, whether it succeeds or fails. -/
theorem execute_document_eq {fuel : Nat} {program : Program} {m : Machine} {o : Outcome}
    (hprogram : Program.everywhere Instruction.isQuiet program = true)
    (hbodies : ∀ body ∈ m.commands.items, Program.everywhere Instruction.isQuiet body = true)
    (ho : m.execute fuel program = some o) : o.machine.document = m.document := by
  have halong := (along_bodies Instruction.isQuiet).and along_document
  have hrun := halong.run ((everywhere_admission Instruction.isQuiet).mono And.left) fuel
  unfold execute at ho
  exact (hrun program (m.record (.executing program.length m.trace)) o ⟨hprogram, hbodies⟩ ho).2

/-- A program that pushes a body, loops over it, runs the body below it and jumps leaves the
document, and so does one that fails behind all that. -/
theorem execute_document_eq_around_loop :
    ∃ (m done failed : Machine) (program : Program) (e : MachineError),
      m.document = .object [("a", .bool true)] ∧
      m.commands.items = [[.pushElement, .moveOut]] ∧
      program = [.pushCommand [.pushElement, .pushElement, .elementToValue],
        .loopUntil (.custom ⟨0, View.elementsAtLeast 2⟩), .popCommand, .jumpIfFalse .moveToRoot] ∧
      m.execute 2 program = some (.done done) ∧ done.document = m.document ∧
      m.execute 2 (program ++ [.mergeArrays]) = some (.failed e failed) ∧
      failed.document = m.document := by
  have hbodies : ∀ body ∈ [[Instruction.pushElement, .moveOut]],
      Program.everywhere Instruction.isQuiet body = true := by decide
  obtain ⟨done, hdone⟩ : ∃ done, execute 2
      [.pushCommand [.pushElement, .pushElement, .elementToValue],
        .loopUntil (.custom ⟨0, View.elementsAtLeast 2⟩), .popCommand, .jumpIfFalse .moveToRoot]
      { start (.object [("a", .bool true)]) {} false with
        commands := ⟨"command", [[.pushElement, .moveOut]]⟩ } = some (.done done) := ⟨_, rfl⟩
  obtain ⟨e, failed, hfailed⟩ : ∃ e failed, execute 2
      ([.pushCommand [.pushElement, .pushElement, .elementToValue],
        .loopUntil (.custom ⟨0, View.elementsAtLeast 2⟩), .popCommand,
        .jumpIfFalse .moveToRoot] ++ [.mergeArrays])
      { start (.object [("a", .bool true)]) {} false with
        commands := ⟨"command", [[.pushElement, .moveOut]]⟩ } = some (.failed e failed) :=
    ⟨_, _, rfl⟩
  exact ⟨_, done, failed, _, e, rfl, rfl, rfl, hdone, execute_document_eq rfl hbodies hdone,
    hfailed, execute_document_eq rfl hbodies hfailed⟩

end Machine

end Reshape
