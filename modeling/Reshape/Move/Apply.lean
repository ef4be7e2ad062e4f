import Reshape.Machine.Run
import Reshape.Move.Program

/-!
# Applying moves

* `MoveError`, why a move cannot be applied to a document, and its message;
* `Program.nesting`, how deep bodies nest in a program;
* `Move.apply`, the document after a move.
-/

namespace Reshape

/-- Why a move cannot be applied. -/
inductive MoveError where
  | path (e : Path.SyntaxError)
  | compile (e : CompileError)
  | machine (e : MachineError)

namespace MoveError

/-- The message of a move error. -/
def message : MoveError → String
  | path e => "Path error: " ++ e.message
  | compile e => "Compile error: " ++ e.message
  | machine e => "Execution error: " ++ e.message

/-- A compile error as a move error: syntax errors are errors of a path, whichever stage found
them. -/
def ofCompile : CompileError → MoveError
  | .path e => path e
  | e => compile e

end MoveError

mutual
/-- How deep bodies nest in an instruction. -/
def Instruction.nesting : Instruction → Nat
  | .pushCommand body => Program.nesting body
  | .mapArray body => Program.nesting body
  | .jumpIfTrue inner => inner.nesting + 1
  | .jumpIfFalse inner => inner.nesting + 1
  | _ => 0

/-- How deep bodies nest in a program, the program itself included. -/
def Program.nesting : List Instruction → Nat
  | [] => 1
  | instruction :: rest => max (instruction.nesting + 1) (Program.nesting rest)
end

namespace Move

/-- The document after a move. The bodies of the program run no body that is not inside
them, so its nesting is fuel enough; the last case does not arise. -/
def apply (move : Move) (document : Json) : Except MoveError Json :=
  match move.program with
  | .error e => .error (.ofCompile e)
  | .ok program =>
    match (Machine.start document {} false).execute (Program.nesting program) program with
    | some (.done m) => .ok m.document
    | some (.failed e _) => .error (.machine e)
    | none => .ok document

end Move

end Reshape
